import Lish.Core.Compressed
import Lish.System.Pages
/-!
# CodeCache — decoded instruction pages

A fixed number of pages of decoded instructions.  A page owns natural basic blocks: a block starts at any halfword of the
page, and later halfwords of the same block share its instructions.
-/
namespace Lish

def CODE_CACHE_PAGES : ℕ := 256
def CODE_PAGE_HALFWORDS : ℕ := 0x1000 / 2
def DECODED_BLOCK_MAX : ℕ := 64
def DECODED_PAGE_ARENA_MAX : ℕ := CODE_PAGE_HALFWORDS * 4

/-- Control transfers, system instructions and invalid ones end a block. -/
def DecodedInsn.endsBasicBlock (d : DecodedInsn) : Bool := !d.valid || [0x0f, 0x63, 0x67, 0x6f, 0x73].contains (opcode d.bits)

structure CachedBlock where
  offsetPlusOne : ℕ
  len : ℕ

def CachedBlock.empty : CachedBlock := ⟨0, 0⟩

/-- Start and length in the arena. -/
def CachedBlock.range (c : CachedBlock) : Option (ℕ × ℕ) :=
  if c.offsetPlusOne = 0 then none else some (c.offsetPlusOne - 1, c.len)

structure DecodedCodePage where
  physicalPage : U64
  icacheGen : U64
  blocks : ℕ → CachedBlock
  instructions : List DecodedInsn

namespace DecodedCodePage

def new (physicalPage icacheGen : U64) : DecodedCodePage := ⟨physicalPage, icacheGen, fun _ => .empty, []⟩

/-- A part of the arena, if the arena has all of it. -/
def slice (p : DecodedCodePage) (start len : ℕ) : Option (List DecodedInsn) :=
  if start + len ≤ p.instructions.length then some ((p.instructions.drop start).take len) else none

/-- The little-endian halfword at an offset of a page. -/
def half (page : ℕ → U8) (offset : ℕ) : U32 := (page offset).setWidth 32 ||| ((page (offset + 1)).setWidth 32 <<< 8)

/-- The word to decode at an offset: a compressed instruction is its halfword; none if it leaves the page. -/
def wordAt (page : ℕ → U8) (offset : ℕ) : Option U32 :=
  if half page offset &&& 3 = 3 then
    if offset + 4 ≤ 0x1000 then some (half page offset ||| (half page (offset + 2) <<< 16)) else none
  else some (half page offset)

/-- Decode a block of at most so many instructions, each with its offset. -/
def decodeBlock (page : ℕ → U8) : ℕ → ℕ → List (ℕ × DecodedInsn)
  | 0, _ => []
  | n + 1, offset =>
    match wordAt page offset with
    | none => []
    | some word =>
      let decoded := DecodedInsn.fromWord word
      let next := offset + decoded.len
      if decoded.endsBasicBlock ∨ next = 0x1000 then [(offset, decoded)]
      else (offset, decoded) :: decodeBlock page n next

/-- Point the halfword of each instruction of a block at the rest of the block. -/
def indexBlock (blocks : ℕ → CachedBlock) (start : ℕ) : List (ℕ × DecodedInsn) → ℕ → CachedBlock
  | [] => blocks
  | (offset, _) :: rest => indexBlock (fun slot => if slot = offset / 2 then ⟨start + 1, rest.length + 1⟩ else blocks slot) (start + 1) rest

/-- The arena is recycled when it may not hold another block. -/
def makeRoom (p : DecodedCodePage) : DecodedCodePage :=
  if p.instructions.length + DECODED_BLOCK_MAX > DECODED_PAGE_ARENA_MAX then { p with blocks := fun _ => .empty, instructions := [] }
  else p

/-- The block at an offset of the page, decoded if it is not there. -/
def block (p : DecodedCodePage) (ram : FlatMemory) (pageOffset : ℕ) : Option (List DecodedInsn) × DecodedCodePage :=
  match (p.blocks (pageOffset / 2)).range with
  | some (start, len) => (p.slice start len, p)
  | none =>
    let p := p.makeRoom
    match ram.offset p.physicalPage 0x1000 with
    | none => (none, p)
    | some base =>
      let decoded := decodeBlock (fun i => ram.mem (base + i)) DECODED_BLOCK_MAX pageOffset
      if decoded = [] then (none, p)
      else
        (some (decoded.map (·.2)), { p with
          blocks := indexBlock p.blocks p.instructions.length decoded
          instructions := p.instructions ++ decoded.map (·.2) })

end DecodedCodePage

/-- Decoded pages, direct-mapped by physical page. -/
structure CodePageCache where
  pages : Fin CODE_CACHE_PAGES → Option DecodedCodePage

namespace CodePageCache

def new : CodePageCache := ⟨fun _ => none⟩

def slot (physicalPage : U64) : Fin CODE_CACHE_PAGES :=
  let page := physicalPage >>> 12
  ((page ^^^ (page >>> 9)).extractLsb' 0 8).toFin

/-- The page in its slot, if it is of the current generation; else an empty one. -/
def pageFor (c : CodePageCache) (physicalPage icacheGen : U64) : DecodedCodePage :=
  match c.pages (slot physicalPage) with
  | some p => if p.physicalPage ≠ physicalPage ∨ p.icacheGen ≠ icacheGen then .new physicalPage icacheGen else p
  | none => .new physicalPage icacheGen

/-- The decoded block at a physical address. -/
def block (c : CodePageCache) (ram : FlatMemory) (physical icacheGen : U64) : Option (List DecodedInsn) × CodePageCache :=
  let physicalPage := physical &&& ~~~0xfff
  let pageOffset := (physical &&& 0xfff).toNat
  if pageOffset % 2 ≠ 0 ∨ pageOffset > 0xffe then (none, c)
  else
    let (insns, page) := (c.pageFor physicalPage icacheGen).block ram pageOffset
    (insns, ⟨fun i => if i = slot physicalPage then some page else c.pages i⟩)

end CodePageCache
end Lish
