import Lish.Core.Bus
/-!
# Pages — RAM pages that back compiled code

Which pages of RAM hold compiled code, which of them were written since the dispatcher last looked, and a write generation
for each.  Any number of writes to a page between two drains is one invalidation.
-/
namespace Lish

def RAM_BASE : U64 := 0x80000000

theorem RAM_page_fits : RAM_BASE.toNat + 4096 ≤ 2 ^ 64 := by decide

theorem ptr_page_fits : (0 : U64).toNat + 4096 ≤ 2 ^ 64 := by decide

theorem page_len_lt : 4096 < 2 ^ 64 := by decide
def JIT_PAGE_SHIFT : ℕ := 12
def JIT_PAGE_SIZE : ℕ := 2 ^ JIT_PAGE_SHIFT

/-- Tracks RAM pages that back compiled code and pages written since the last dispatcher drain. -/
structure JitPageState where
  pageCount : ℕ
  marked : ℕ → Bool
  dirty : ℕ → Bool
  /-- The pages whose dirty flag is set, in the order of their first write. -/
  dirtyPages : List ℕ
  writeGenerations : ℕ → U64

namespace JitPageState

def new (ramBytes : ℕ) : JitPageState where
  pageCount := (ramBytes + JIT_PAGE_SIZE - 1) / JIT_PAGE_SIZE
  marked := fun _ => false
  dirty := fun _ => false
  dirtyPages := []
  writeGenerations := fun _ => 0

def pageForAddress (s : JitPageState) (pa : U64) : Option ℕ :=
  if pa < RAM_BASE then none
  else
    let page := ((pa - RAM_BASE) >>> JIT_PAGE_SHIFT).toNat
    if page < s.pageCount then some page else none

def setMarked (s : JitPageState) (page : ℕ) (v : Bool) : JitPageState :=
  { s with marked := fun p => if p = page then v else s.marked p }

/-- Mark the page of an address; whether it is newly marked. -/
def markAddress (s : JitPageState) (pa : U64) : Bool × JitPageState :=
  match s.pageForAddress pa with
  | some page => (!s.marked page, s.setMarked page true)
  | none => (false, s)

def unmarkPage (s : JitPageState) (page : ℕ) : JitPageState := if page < s.pageCount then s.setMarked page false else s

def pageMarked (s : JitPageState) (page : ℕ) : Bool := decide (page < s.pageCount) && s.marked page

def addressMarked (s : JitPageState) (pa : U64) : Bool :=
  match s.pageForAddress pa with
  | some page => s.marked page
  | none => false

/-- The write generation of a RAM page, compared when an asynchronous compilation lands. -/
def pageGeneration (s : JitPageState) (page : ℕ) : Option U64 :=
  if page < s.pageCount then some (s.writeGenerations page) else none

def notePageWrite (s : JitPageState) (page : ℕ) : JitPageState :=
  if s.marked page && !s.dirty page then
    { s with
      writeGenerations := fun p => if p = page then s.writeGenerations p + 1 else s.writeGenerations p
      dirty := fun p => if p = page then true else s.dirty p
      dirtyPages := s.dirtyPages ++ [page] }
  else s

def noteStore (s : JitPageState) (pa : U64) : JitPageState :=
  match s.pageForAddress pa with
  | some page => s.notePageWrite page
  | none => s

/-- Record a write to each of `n` pages from a first one. -/
def notePages (s : JitPageState) (first : ℕ) : ℕ → JitPageState
  | 0 => s
  | n + 1 => (s.notePages first n).notePageWrite (first + n)

/-- Record a DMA write to every compiled-code page touched by the range. -/
def noteWrite (s : JitPageState) (pa : U64) (len : ℕ) : JitPageState :=
  if len = 0 then s
  else if pa.toNat + (len - 1) ≥ 2 ^ 64 then s
  else
    match s.pageForAddress pa, s.pageForAddress (pa + BitVec.ofNat 64 (len - 1)) with
    | some first, some last => s.notePages first (last + 1 - first)
    | _, _ => s

def hasDirty (s : JitPageState) : Bool := !s.dirtyPages.isEmpty

def isDirty (s : JitPageState) (page : ℕ) : Bool := decide (page < s.pageCount) && s.dirty page

/-- Drain dirty RAM pages in first-write order. -/
def takeDirty (s : JitPageState) : List ℕ × JitPageState :=
  (s.dirtyPages, { s with dirtyPages := [], dirty := fun p => s.dirty p && !s.dirtyPages.contains p })

end JitPageState
end Lish
