import Lish.Core.Cpu
/-!
# Mmu — address translation

`translate` answers from the TLB row of the access, or walks the page table (sv39, sv48), checks permissions, sets the
accessed and dirty bits and fills the row.
-/
namespace Lish

/-- A hart and its bus. -/
structure Machine (β : Type) where
  cpu : Cpu
  bus : β

namespace Machine

variable {β : Type} [Bus β]

def fault (access : Access) (addr : U64) : Exception :=
  match access with
  | .fetch => .instructionPageFault addr
  | .load => .loadPageFault addr
  | .store => .storePageFault addr

/-! ## The page-table walk -/

/-- The page-table entry a walk ends in. -/
structure Leaf where
  pteAddr : U64
  pte : U64
  level : ℕ

def pteV (pte : U64) : Bool := pte.getLsbD 0
def pteR (pte : U64) : Bool := pte.getLsbD 1
def pteW (pte : U64) : Bool := pte.getLsbD 2
def pteX (pte : U64) : Bool := pte.getLsbD 3
def pteU (pte : U64) : Bool := pte.getLsbD 4

/-- Address of the entry for `va` in the table of a level. -/
def pteAddrAt (table va : U64) (level : ℕ) : U64 := table + ((va >>> (12 + 9 * level)) &&& 0x1ff) * 8

/-- The table a pointer entry names. -/
def nextTable (pte : U64) : U64 := (pte >>> 10) <<< 12

/-- What an entry is: invalid, a pointer to the next level, or a leaf. -/
inductive Entry
  | bad
  | table (next : U64)
  | leaf
  deriving DecidableEq

def entryOf (pte : U64) : Entry :=
  if !pteV pte || (!pteR pte && pteW pte) then .bad
  else if !pteR pte && !pteX pte then .table (nextTable pte)
  else .leaf

/-- The walk loop, down to a leaf: the next level is `level`. -/
def findLeaf (access : Access) (va : U64) : (level : ℕ) → (table : U64) → β → Except Exception Leaf × β
  | level, table, bus =>
    match Bus.read .w8 bus (pteAddrAt table va level) with
    | (.error _, bus) => (.error (fault access va), bus)
    | (.ok pte, bus) =>
      match entryOf pte, level with
      | .bad, _ => (.error (fault access va), bus)
      | .table _, 0 => (.error (fault access va), bus)
      | .table next, level + 1 => findLeaf access va level next bus
      | .leaf, level => (.ok ⟨pteAddrAt table va level, pte, level⟩, bus)

/-- Superpage alignment and permissions of a leaf. -/
def Leaf.allows (leaf : Leaf) (mode : Mode) (sum mxr : Bool) (access : Access) : Bool :=
  let ppn := leaf.pte >>> 10
  if leaf.level > 0 ∧ ppn &&& ((1#64 <<< (9 * leaf.level)) - 1) ≠ 0 then false
  else if mode = .user ∧ !pteU leaf.pte then false
  else if mode = .supervisor ∧ pteU leaf.pte ∧ !(sum && access != .fetch) then false
  else match access with
    | .fetch => pteX leaf.pte
    | .load => pteR leaf.pte || (mxr && pteX leaf.pte)
    | .store => pteW leaf.pte

/-- The entry with its accessed (and for a store dirty) bit set. -/
def updatePte (access : Access) (pte : U64) : U64 :=
  let pte := pte ||| (1#64 <<< 6)
  if access = .store then pte ||| (1#64 <<< 7) else pte

/-- Physical address under a leaf: superpage low bits come from `va`. -/
def Leaf.pa (leaf : Leaf) (va : U64) : U64 :=
  let mask : U64 := (1#64 <<< (12 + 9 * leaf.level)) - 1
  (((leaf.pte >>> 10) <<< 12) &&& ~~~mask) ||| (va &&& mask)

/-- Fill the row of an access, at 4 KiB granularity. -/
def fillTlb (c : Cpu) (access : Access) (va pa : U64) : Cpu :=
  let idx := Cpu.tlbIndex va
  let tag := c.translationTag va
  let c := if access = .store ∧ c.jtlbTag 1 idx ≠ tag then { c with jtlbTag := c.jtlbTag.set 1 idx TLB_INVALID } else c
  { c with tlbTag := c.tlbTag.set access.row idx tag, tlbDiff := c.tlbDiff.set access.row idx (pa - va) }

/-- Permission checks, A/D update and TLB fill of a leaf. -/
def takeLeaf (m : Machine β) (s : SysCsrs) (va : U64) (access : Access) (leaf : Leaf) (bus : β) :
    Except Exception U64 × Machine β :=
  let sum : Bool := s.mstatus &&& MSTATUS_SUM ≠ 0
  let mxr : Bool := s.mstatus &&& MSTATUS_MXR ≠ 0
  if !leaf.allows (Cpu.effMode s access) sum mxr access then (.error (fault access va), { m with bus := bus })
  else
    let newPte := updatePte access leaf.pte
    match if newPte ≠ leaf.pte then Bus.write .w8 bus leaf.pteAddr newPte else (.ok (), bus) with
    | (.error _, bus) => (.error (fault access va), { m with bus := bus })
    | (.ok (), bus) => (.ok (leaf.pa va), ⟨fillTlb m.cpu access va (leaf.pa va), bus⟩)

/-- The walk under a paging mode of so many levels. -/
def walkTables (m : Machine β) (s : SysCsrs) (levels : ℕ) (va : U64) (access : Access) : Except Exception U64 × Machine β :=
  -- canonical check
  let ext := va.sshiftRight (9 * levels + 12 - 1)
  if ext ≠ 0 ∧ ext ≠ BitVec.allOnes 64 then (.error (fault access va), m)
  else
    match findLeaf access va (levels - 1) ((s.satp &&& 0xfffffffffff) <<< 12) m.bus with
    | (.error e, bus) => (.error e, { m with bus := bus })
    | (.ok leaf, bus) => m.takeLeaf s va access leaf bus

/-- Page-table walk (sv39/sv48), permission checks, A/D update, TLB fill. -/
def translateSlow (m : Machine β) (va : U64) (access : Access) : Except Exception U64 × Machine β :=
  match m.cpu.sys with
  | none => (.ok va, m)
  | some s =>
    let vm := s.satp >>> 60
    -- bare, or M-mode without MPRV redirection: identity
    if vm = 0 ∨ Cpu.effMode s access = .machine then (.ok va, m)
    else if vm = 8 then m.walkTables s 3 va access
    else if vm = 9 then m.walkTables s 4 va access
    else (.error (fault access va), m)

/-- Translate a virtual address: TLB hit, or walk. -/
def translate (m : Machine β) (va : U64) (access : Access) : Except Exception U64 × Machine β :=
  match m.cpu.sys with
  | none => (.ok va, m)
  | some _ =>
    let idx := Cpu.tlbIndex va
    if m.cpu.tlbTag access.row idx = m.cpu.translationTag va then (.ok (va + m.cpu.tlbDiff access.row idx), m)
    else m.translateSlow va access

/-- Fill the fused JIT-TLB entry of a directly accessible page. -/
def fillJtlb (m : Machine β) (va pa : U64) (store : Bool) : Machine β :=
  match Bus.jitFastOff m.bus va pa store with
  | none => m
  | some off =>
    let idx := Cpu.tlbIndex va
    { m with cpu := { m.cpu with
        jtlbTag := m.cpu.jtlbTag.set (jitRow store) idx (m.cpu.translationTag va)
        jtlbOff := m.cpu.jtlbOff.set (jitRow store) idx off } }

/-- Translate a data access and fill its fused JIT-TLB entry. -/
def translateFill (m : Machine β) (va : U64) (store : Bool) : Except Exception U64 × Machine β :=
  match m.translate va (if store then .store else .load) with
  | (.error e, m) => (.error e, m)
  | (.ok pa, m) => (.ok pa, m.fillJtlb va pa store)

/-- Fill the JIT-TLB row for `va` without raising a fault; the offset a compiled block needs. -/
def jitFillTlb (m : Machine β) (va : U64) (store : Bool) : Option U64 × Machine β :=
  match m.translate va (if store then .store else .load) with
  | (.error _, m) => (none, m)
  | (.ok pa, m) => (Bus.jitFastOff m.bus va pa store, m.fillJtlb va pa store)

end Machine
end Lish
