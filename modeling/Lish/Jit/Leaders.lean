import Lish.Core.Compressed
import Lish.Prog.Worklist
import Mathlib.Data.Finset.Sort
/-!
# Leaders — the basic blocks of a code page

From its seeds the discovery walks each block to its end and takes up the addresses that the end leads to, until nothing new
is found or the cap is reached.
-/
namespace Lish

def MAX_BLOCK : ℕ := 128

/-- A window of guest code. -/
structure CodeWindow where
  code : List U8
  base : U64

namespace CodeWindow

variable (w : CodeWindow)

/-- The half word at an offset. -/
def half (off : ℕ) : Option U16 :=
  match w.code[off]?, w.code[off + 1]? with
  | some lo, some hi => some (hi ++ lo)
  | _, _ => none

/-- The instruction at an address, expanded, and its length. -/
def fetch (pc : U64) : Option (U32 × U64) :=
  if w.base ≤ pc then
    let off := (pc - w.base).toNat
    match w.half off with
    | none => none
    | some lo =>
      if lo &&& 3 = 3 then (w.half (off + 2)).map fun hi : U16 => (lo.setWidth 32 ||| (hi.setWidth 32 <<< 16), 4)
      else (Compressed.expand lo).map fun e => (e, 2)
  else none

end CodeWindow

/-! ## What the emitter translates -/

def aluHandled (op f7 f3 : ℕ) : Bool :=
  match op with
  | 0x37 => true
  | 0x17 => true
  | 0x13 => if f3 = 1 then f7 ≤ 1 else if f3 = 5 then f7 ≤ 1 ∨ f7 = 0x20 ∨ f7 = 0x21 else true
  | 0x33 => f7 = 0 ∨ f7 = 0x20 ∧ (f3 = 0 ∨ f3 = 5) ∨ f7 = 1
  | 0x1b => f3 = 0 ∨ f3 = 1 ∧ f7 = 0 ∨ f3 = 5 ∧ (f7 = 0 ∨ f7 = 0x20)
  | 0x3b => f7 = 0 ∧ (f3 = 0 ∨ f3 = 1 ∨ f3 = 5) ∨ f7 = 0x20 ∧ (f3 = 0 ∨ f3 = 5) ∨ f7 = 1 ∧ (f3 = 0 ∨ 4 ≤ f3)
  | _ => false

/-- Not the load-reserved and store-conditional instructions. -/
def amoHandled (insn : U32) : Bool :=
  (funct3 insn = 2 ∨ funct3 insn = 3) ∧ (insn >>> 27).toNat ∈ [0, 1, 4, 8, 0xc, 0x10, 0x14, 0x18, 0x1c]

/-- Rounding to nearest, or as the mode says. -/
def dynRounding (f3 : ℕ) : Bool := f3 = 0 ∨ f3 = 7

def fpHandled (insn : U32) : Bool :=
  let f3 := funct3 insn
  let op := funct7 insn / 4
  let r2 := (rs2 insn).val
  match funct7 insn % 4 with
  | 0 => op ≤ 3 ∧ dynRounding f3 ∨ op = 4 ∧ f3 ≤ 2 ∨ op = 0x14 ∧ f3 ≤ 2 ∨ op = 0x0b ∧ dynRounding f3 ∧ r2 = 0 ∨
      op = 0x1e ∧ f3 = 0 ∧ r2 = 0 ∨ op = 0x1c ∧ f3 = 0 ∧ r2 = 0 ∨ op = 8 ∧ dynRounding f3 ∧ r2 = 1 ∨
      op = 0x18 ∧ f3 = 1 ∧ r2 = 0 ∨ op = 0x1a ∧ dynRounding f3 ∧ r2 ≤ 3
  | 1 => op ≤ 3 ∧ dynRounding f3 ∨ op = 4 ∧ f3 ≤ 2 ∨ op = 8 ∧ dynRounding f3 ∧ r2 = 0 ∨ op = 0x14 ∧ f3 ≤ 2 ∨
      op = 0x1e ∧ f3 = 0 ∧ r2 = 0 ∨ op = 0x1c ∧ f3 = 0 ∧ r2 = 0 ∨ op = 0x0b ∧ dynRounding f3 ∧ r2 = 0 ∨
      op = 0x18 ∧ f3 = 1 ∧ r2 = 0 ∨ op = 0x1a ∧ dynRounding f3 ∧ r2 ≤ 3
  | _ => false

/-- Double precision only. -/
def fmaHandled (insn : U32) : Bool :=
  opcode insn ∈ [0x43, 0x47, 0x4b, 0x4f] ∧ ((insn >>> 25) &&& 3).toNat = 1 ∧ dynRounding (funct3 insn)

/-- The instructions inside a block. -/
def handled (insn : U32) : Bool :=
  let op := opcode insn
  if op ∈ [0x37, 0x17, 0x13, 0x33, 0x1b, 0x3b] then aluHandled op (funct7 insn) (funct3 insn)
  else if op = 0x03 then funct3 insn ≠ 7
  else if op = 0x23 then funct3 insn ≤ 3
  else if op = 0x2f then amoHandled insn
  else if op = 0x07 ∨ op = 0x27 then funct3 insn = 2 ∨ funct3 insn = 3
  else if op = 0x53 then fpHandled insn
  else if op ∈ [0x43, 0x47, 0x4b, 0x4f] then fmaHandled insn
  else false

/-- The parts of the layout that decide what the emitter takes up: system memory, and floating-point registers. -/
structure JitLayout where
  sys : Bool
  fBase : U32

def emittableAt (w : CodeWindow) (pc : U64) (lay : JitLayout) : Bool :=
  match w.fetch pc with
  | none => false
  | some (insn, _) =>
    let op := opcode insn
    if op = 0x63 ∨ op = 0x6f ∨ op = 0x67 then true
    else if op ∈ [0x37, 0x17, 0x13, 0x33, 0x1b, 0x3b] then aluHandled op (funct7 insn) (funct3 insn)
    else if op = 0x03 then funct3 insn ≠ 7
    else if op = 0x23 then funct3 insn ≤ 3
    else if op = 0x2f then lay.sys && amoHandled insn
    else if op = 0x07 ∨ op = 0x27 then lay.fBase ≠ 0 ∧ (funct3 insn = 2 ∨ funct3 insn = 3)
    else if op = 0x53 then lay.fBase ≠ 0 ∧ fpHandled insn
    else if op ∈ [0x43, 0x47, 0x4b, 0x4f] then lay.fBase ≠ 0 ∧ fmaHandled insn
    else false

/-- What the emitter takes up is control flow or stays inside a block. -/
theorem emittable_handled {w : CodeWindow} {pc : U64} {lay : JitLayout} (h : emittableAt w pc lay = true) :
    ∃ insn ilen, w.fetch pc = some (insn, ilen) ∧
      (opcode insn = 0x63 ∨ opcode insn = 0x6f ∨ opcode insn = 0x67 ∨ handled insn = true) := by
  unfold emittableAt at h
  cases hf : w.fetch pc with
  | none =>
    rw [hf] at h
    cases h
  | some f =>
    obtain ⟨insn, ilen⟩ := f
    refine ⟨insn, ilen, rfl, ?_⟩
    rw [hf] at h
    dsimp only at h
    by_cases hc : opcode insn = 0x63 ∨ opcode insn = 0x6f ∨ opcode insn = 0x67
    · rcases hc with hc | hc | hc
      · exact Or.inl hc
      · exact Or.inr (Or.inl hc)
      · exact Or.inr (Or.inr (Or.inl hc))
    · rw [if_neg hc] at h
      refine Or.inr (Or.inr (Or.inr ?_))
      unfold handled
      dsimp only
      split_ifs at h ⊢ <;> simp_all

/-! ## The discovery -/

/-- The leaders found, those to be walked, those walked, and the targets of jumps back. -/
structure Discovery extends Worklist U64 where
  backTargets : Finset U64

namespace Discovery

variable (w : CodeWindow) (pageBase pageEnd : U64) (maxLeaders : ℕ)

/-- The closure `in_page`. -/
def InPage (t : U64) : Prop := pageBase ≤ t ∧ t < pageEnd

instance : DecidablePred (InPage pageBase pageEnd) := fun _ => inferInstanceAs (Decidable (_ ∧ _))

/-- The closure `add`. -/
def add (d : Discovery) (t : U64) : Discovery :=
  { d with toWorklist := d.toWorklist.add (InPage pageBase pageEnd) maxLeaders t }

def addBack (d : Discovery) (t : U64) : Discovery := { d with backTargets := insert t d.backTargets }

/-- The block at `pc`, at most `n` instructions of it. -/
def walk : ℕ → U64 → Discovery → Discovery
  | 0, _, d => d
  | n + 1, pc, d =>
    if pc < pageEnd then
      match w.fetch pc with
      | none => d
      | some (insn, ilen) =>
        let next := pc + ilen
        if opcode insn = 0x63 then
          let target := pc + immB insn
          let d := if target ≤ pc then d.addBack target else d
          (d.add pageBase pageEnd maxLeaders target).add pageBase pageEnd maxLeaders next
        else if opcode insn = 0x6f then
          let target := pc + immJ insn
          let d := if target ≤ pc ∧ rd insn = 0 then d.addBack target else d
          let d := d.add pageBase pageEnd maxLeaders target
          if rd insn ≠ 0 then d.add pageBase pageEnd maxLeaders next else d
        else if opcode insn = 0x67 then
          if rd insn ≠ 0 then d.add pageBase pageEnd maxLeaders next else d
        else if handled insn then walk n next d
        else d.add pageBase pageEnd maxLeaders next
    else d

/-! ### What a block leads to -/

/-- Where an instruction that ends its block leads. -/
inductive Leads (insn : U32) (pc next : U64) : U64 → Prop
  | branch : opcode insn = 0x63 → Leads insn pc next (pc + immB insn)
  | fallThrough : opcode insn = 0x63 → Leads insn pc next next
  | jump : opcode insn = 0x6f → Leads insn pc next (pc + immJ insn)
  | callReturn : opcode insn = 0x6f ∨ opcode insn = 0x67 → rd insn ≠ 0 → Leads insn pc next next
  | unhandled : opcode insn ≠ 0x63 → opcode insn ≠ 0x6f → opcode insn ≠ 0x67 → handled insn = false → Leads insn pc next next

/-- The branches and the plain jumps that do not go forward. -/
inductive GoesBack (insn : U32) (pc : U64) : U64 → Prop
  | branch : opcode insn = 0x63 → pc + immB insn ≤ pc → GoesBack insn pc (pc + immB insn)
  | jump : opcode insn = 0x6f → rd insn = 0 → pc + immJ insn ≤ pc → GoesBack insn pc (pc + immJ insn)

/-- **A walk meets an instruction**: the walk of at most `n` instructions below `stop` that begins at `start`. -/
inductive Meets (w : CodeWindow) (stop : ℕ) : ℕ → U64 → U64 → U32 → U64 → Prop
  | here {n : ℕ} {start : U64} {insn : U32} {ilen : U64} : start.toNat < stop → w.fetch start = some (insn, ilen) →
    Meets w stop (n + 1) start start insn (start + ilen)
  | later {n : ℕ} {start pc next : U64} {insn insn' : U32} {ilen : U64} : start.toNat < stop →
    w.fetch start = some (insn, ilen) → handled insn = true → Meets w stop n (start + ilen) pc insn' next →
    Meets w stop (n + 1) start pc insn' next

/-- The instruction at which a walk ends a block, and what follows it. -/
def blockEnd (w : CodeWindow) (stop : ℕ) : ℕ → U64 → Option (U64 × U32 × U64)
  | 0, _ => none
  | n + 1, pc =>
    if pc.toNat < stop then
      match w.fetch pc with
      | none => none
      | some (insn, ilen) => if handled insn then blockEnd w stop n (pc + ilen) else some (pc, insn, pc + ilen)
    else none

def successors (insn : U32) (pc next : U64) : List U64 :=
  if opcode insn = 0x63 then [pc + immB insn, next]
  else if opcode insn = 0x6f then (pc + immJ insn) :: if rd insn ≠ 0 then [next] else []
  else if opcode insn = 0x67 then if rd insn ≠ 0 then [next] else []
  else [next]

def targetsBack (insn : U32) (pc : U64) : Finset U64 :=
  if opcode insn = 0x63 then if pc + immB insn ≤ pc then {pc + immB insn} else ∅
  else if opcode insn = 0x6f then if pc + immJ insn ≤ pc ∧ rd insn = 0 then {pc + immJ insn} else ∅
  else ∅

def endEdges : Option (U64 × U32 × U64) → List U64
  | none => []
  | some (pc, insn, next) => successors insn pc next

def endBack : Option (U64 × U32 × U64) → Finset U64
  | none => ∅
  | some (pc, insn, _) => targetsBack insn pc

/-- The addresses that the block at `start` leads to, and those that it goes back to. -/
def edges (w : CodeWindow) (stop : ℕ) (start : U64) : List U64 := endEdges (blockEnd w stop MAX_BLOCK start)

def edgesBack (w : CodeWindow) (stop : ℕ) (start : U64) : Finset U64 := endBack (blockEnd w stop MAX_BLOCK start)

theorem handled_control {insn : U32} (h : opcode insn = 0x63 ∨ opcode insn = 0x6f ∨ opcode insn = 0x67) :
    handled insn = false := by
  unfold handled
  rcases h with h | h | h <;> rw [h] <;> rfl

variable {w : CodeWindow} {pageBase pageEnd : U64} {maxLeaders : ℕ}

theorem blockEnd_eq_some {stop n : ℕ} {start pc next : U64} {insn : U32} :
    blockEnd w stop n start = some (pc, insn, next) ↔ Meets w stop n start pc insn next ∧ handled insn = false := by
  induction n generalizing start with
  | zero => exact ⟨fun h => (by cases h), fun h => (by cases h.1)⟩
  | succ n ih =>
    rw [blockEnd]
    constructor
    · intro h
      split at h
      · rename_i hstop
        cases hf : w.fetch start with
        | none =>
          rw [hf] at h
          cases h
        | some f =>
          rw [hf] at h
          dsimp only at h
          split at h
          · rename_i hh
            exact ⟨.later hstop hf hh (ih.1 h).1, (ih.1 h).2⟩
          · rename_i hh
            cases h
            exact ⟨.here hstop hf, Bool.eq_false_iff.2 hh⟩
      · cases h
    · rintro ⟨hm, hh⟩
      cases hm with
      | here hstop hf =>
        rw [if_pos hstop, hf]
        dsimp only
        rw [hh, if_neg Bool.false_ne_true]
      | later hstop hf hp hm =>
        rw [if_pos hstop, hf]
        dsimp only
        rw [hp, if_pos rfl]
        exact ih.2 ⟨hm, hh⟩

theorem mem_successors {insn : U32} {pc next t : U64} (h : handled insn = false) :
    t ∈ successors insn pc next ↔ Leads insn pc next t := by
  unfold successors
  constructor
  · intro ht
    split at ht
    · rename_i ho
      rcases List.mem_cons.1 ht with rfl | ht
      · exact .branch ho
      · rw [List.mem_singleton.1 ht]
        exact .fallThrough ho
    · rename_i hb
      split at ht
      · rename_i ho
        rcases List.mem_cons.1 ht with rfl | ht
        · exact .jump ho
        · split at ht
          · rename_i hr
            rw [List.mem_singleton.1 ht]
            exact .callReturn (Or.inl ho) hr
          · cases ht
      · rename_i hj
        split at ht
        · rename_i ho
          split at ht
          · rename_i hr
            rw [List.mem_singleton.1 ht]
            exact .callReturn (Or.inr ho) hr
          · cases ht
        · rename_i hr
          rw [List.mem_singleton.1 ht]
          exact .unhandled hb hj hr h
  · intro ht
    cases ht with
    | branch ho => rw [if_pos ho]; exact List.mem_cons_self
    | fallThrough ho => rw [if_pos ho]; exact List.mem_cons_of_mem _ (List.mem_singleton_self next)
    | jump ho =>
      rw [if_neg (by rw [ho]; decide), if_pos ho]
      exact List.mem_cons_self
    | callReturn ho hr =>
      rcases ho with ho | ho
      · rw [if_neg (by rw [ho]; decide), if_pos ho, if_pos hr]
        exact List.mem_cons_of_mem _ (List.mem_singleton_self next)
      · rw [if_neg (by rw [ho]; decide), if_neg (by rw [ho]; decide), if_pos ho, if_pos hr]
        exact List.mem_singleton_self next
    | unhandled hb hj hr _ =>
      rw [if_neg hb, if_neg hj, if_neg hr]
      exact List.mem_singleton_self next

theorem leads_handled {insn : U32} {pc next t : U64} (h : Leads insn pc next t) : handled insn = false := by
  cases h with
  | branch ho => exact handled_control (Or.inl ho)
  | fallThrough ho => exact handled_control (Or.inl ho)
  | jump ho => exact handled_control (Or.inr (Or.inl ho))
  | callReturn ho _ => exact handled_control (Or.inr ho)
  | unhandled _ _ _ hh => exact hh

/-- **The edges of a leader** are where the instructions of its walk lead. -/
theorem mem_edges {stop : ℕ} {start t : U64} :
    t ∈ edges w stop start ↔ ∃ pc insn next, Meets w stop MAX_BLOCK start pc insn next ∧ Leads insn pc next t := by
  unfold edges
  constructor
  · intro ht
    cases hb : blockEnd w stop MAX_BLOCK start with
    | none =>
      rw [hb] at ht
      cases ht
    | some e =>
      obtain ⟨hm, hh⟩ := blockEnd_eq_some.1 hb
      rw [hb] at ht
      exact ⟨_, _, _, hm, (mem_successors hh).1 ht⟩
  · rintro ⟨pc, insn, next, hm, hl⟩
    have hh := leads_handled hl
    rw [blockEnd_eq_some.2 ⟨hm, hh⟩]
    exact (mem_successors hh).2 hl

theorem mem_targetsBack {insn : U32} {pc t : U64} : t ∈ targetsBack insn pc ↔ GoesBack insn pc t := by
  unfold targetsBack
  constructor
  · intro ht
    split at ht
    · rename_i ho
      split at ht
      · rename_i hle
        rw [Finset.mem_singleton.1 ht]
        exact .branch ho hle
      · exact absurd ht (Finset.notMem_empty t)
    · split at ht
      · rename_i ho
        split at ht
        · rename_i hle
          rw [Finset.mem_singleton.1 ht]
          exact .jump ho hle.2 hle.1
        · exact absurd ht (Finset.notMem_empty t)
      · exact absurd ht (Finset.notMem_empty t)
  · intro ht
    cases ht with
    | branch ho hle =>
      rw [if_pos ho, if_pos hle]
      exact Finset.mem_singleton_self _
    | jump ho hr hle =>
      rw [if_neg (by rw [ho]; decide), if_pos ho, if_pos ⟨hle, hr⟩]
      exact Finset.mem_singleton_self _

theorem mem_edgesBack {stop : ℕ} {start t : U64} :
    t ∈ edgesBack w stop start ↔ ∃ pc insn next, Meets w stop MAX_BLOCK start pc insn next ∧ GoesBack insn pc t := by
  unfold edgesBack
  constructor
  · intro ht
    cases hb : blockEnd w stop MAX_BLOCK start with
    | none =>
      rw [hb] at ht
      exact absurd ht (Finset.notMem_empty t)
    | some e =>
      rw [hb] at ht
      exact ⟨_, _, _, (blockEnd_eq_some.1 hb).1, mem_targetsBack.1 ht⟩
  · rintro ⟨pc, insn, next, hm, hg⟩
    have hh : handled insn = false := by
      cases hg with
      | branch ho _ => exact handled_control (Or.inl ho)
      | jump ho _ _ => exact handled_control (Or.inr (Or.inl ho))
    rw [blockEnd_eq_some.2 ⟨hm, hh⟩]
    exact mem_targetsBack.2 hg

/-! ### The walk -/

theorem insert_back (s : Finset U64) (t : U64) : s ∪ {t} = insert t s := by
  rw [Finset.union_comm, Finset.insert_eq]

/-- **A walk takes up what its end leads to.** -/
theorem walk_eq (n : ℕ) (pc : U64) (d : Discovery) :
    walk w pageBase pageEnd maxLeaders n pc d =
      { toWorklist := d.toWorklist.addAll (InPage pageBase pageEnd) maxLeaders (endEdges (blockEnd w pageEnd.toNat n pc))
        backTargets := d.backTargets ∪ endBack (blockEnd w pageEnd.toNat n pc) } := by
  have hnone : d = { toWorklist := d.toWorklist.addAll (InPage pageBase pageEnd) maxLeaders (endEdges none)
                     backTargets := d.backTargets ∪ endBack none } := by
    unfold endBack
    rw [Finset.union_empty]
    rfl
  induction n generalizing pc with
  | zero => exact hnone
  | succ n ih =>
    rw [walk, blockEnd]
    by_cases hstop : pc < pageEnd
    · rw [if_pos hstop, if_pos (BitVec.lt_def.1 hstop)]
      cases hf : w.fetch pc with
      | none => exact hnone
      | some f =>
        obtain ⟨insn, ilen⟩ := f
        dsimp only
        by_cases hb : opcode insn = 0x63
        · rw [if_pos hb, handled_control (Or.inl hb), if_neg Bool.false_ne_true]
          unfold endEdges endBack successors targetsBack
          dsimp only
          rw [if_pos hb, if_pos hb]
          by_cases hle : pc + immB insn ≤ pc
          · rw [if_pos hle, if_pos hle, insert_back]
            rfl
          · rw [if_neg hle, if_neg hle, Finset.union_empty]
            rfl
        · rw [if_neg hb]
          by_cases hj : opcode insn = 0x6f
          · rw [if_pos hj, handled_control (Or.inr (Or.inl hj)), if_neg Bool.false_ne_true]
            unfold endEdges endBack successors targetsBack
            dsimp only
            rw [if_neg hb, if_pos hj, if_neg hb, if_pos hj]
            by_cases hle : pc + immJ insn ≤ pc ∧ rd insn = 0
            · rw [if_pos hle, if_pos hle, if_neg (fun h => h hle.2), if_neg (fun h => h hle.2), insert_back]
              rfl
            · rw [if_neg hle, if_neg hle, Finset.union_empty]
              by_cases hr : rd insn ≠ 0
              · rw [if_pos hr, if_pos hr]
                rfl
              · rw [if_neg hr, if_neg hr]
                rfl
          · rw [if_neg hj]
            by_cases hi : opcode insn = 0x67
            · rw [if_pos hi, handled_control (Or.inr (Or.inr hi)), if_neg Bool.false_ne_true]
              unfold endEdges endBack successors targetsBack
              dsimp only
              rw [if_neg hb, if_neg hj, if_pos hi, if_neg hb, if_neg hj, Finset.union_empty]
              by_cases hr : rd insn ≠ 0
              · rw [if_pos hr, if_pos hr]
                rfl
              · rw [if_neg hr, if_neg hr]
                rfl
            · rw [if_neg hi]
              by_cases hh : handled insn = true
              · rw [if_pos hh, if_pos hh, ih]
              · rw [if_neg hh, if_neg hh]
                unfold endEdges endBack successors targetsBack
                dsimp only
                rw [if_neg hb, if_neg hj, if_neg hi, if_neg hb, if_neg hj, Finset.union_empty]
                rfl
    · rw [if_neg hstop, if_neg (fun h => hstop (BitVec.lt_def.2 h))]
      exact hnone

/-! ### The loop -/

theorem card_le (s : Finset U64) : s.card ≤ 2 ^ 64 := by
  have hinj : Function.Injective (BitVec.toFin : U64 → Fin (2 ^ 64)) := fun a b h => BitVec.eq_of_toFin_eq h
  rw [← Finset.card_image_of_injective s hinj]
  exact (Finset.card_le_univ _).trans (Fintype.card_fin _).le

theorem walk_done (n : ℕ) (pc : U64) (d : Discovery) : (walk w pageBase pageEnd maxLeaders n pc d).done = d.done := by
  rw [walk_eq]
  obtain ⟨new, hn⟩ := @Worklist.addAll_added _ _ (InPage pageBase pageEnd) _ maxLeaders
    (endEdges (blockEnd w pageEnd.toNat n pc)) d.toWorklist
  exact hn.done

variable (w pageBase pageEnd maxLeaders)

/-- `while let Some(start) = pending.pop()`. -/
def loop (d : Discovery) : Discovery :=
  match _hp : d.pending with
  | [] => d
  | start :: rest =>
    if start ∈ d.done then loop { d with pending := rest }
    else loop (walk w pageBase pageEnd maxLeaders MAX_BLOCK start { d with pending := rest, done := insert start d.done })
termination_by (2 ^ 64 - d.done.card, d.pending.length)
decreasing_by
  · rw [_hp]
    exact Prod.Lex.right _ (Nat.lt_succ_self _)
  · rename_i hn
    refine Prod.Lex.left _ _ ?_
    rw [walk_done]
    have hcard := card_le (insert start d.done)
    rw [Finset.card_insert_of_notMem hn] at hcard ⊢
    omega

variable {w pageBase pageEnd maxLeaders}

/-- **A discovery on its way**: a closing worklist, and the jumps back of what has been walked. -/
structure Sound (w : CodeWindow) (pageBase pageEnd : U64) (maxLeaders : ℕ) (seeds : List U64) (d : Discovery) : Prop where
  closing : d.toWorklist.Closing (InPage pageBase pageEnd) maxLeaders (edges w pageEnd.toNat) seeds
  back : ∀ t, t ∈ d.backTargets ↔ ∃ x ∈ d.done, t ∈ edgesBack w pageEnd.toNat x

theorem sound_start (seeds : List U64) : Sound w pageBase pageEnd maxLeaders seeds ⟨Worklist.start seeds, ∅⟩ := by
  refine ⟨.start seeds, fun t => ⟨fun h => absurd h (Finset.notMem_empty t), fun h => ?_⟩⟩
  obtain ⟨x, hx, -⟩ := h
  exact absurd hx (Finset.notMem_empty x)

theorem sound_walk {seeds rest : List U64} {start : U64} {d : Discovery} (h : Sound w pageBase pageEnd maxLeaders seeds d)
    (hp : d.pending = start :: rest) :
    Sound w pageBase pageEnd maxLeaders seeds
      (walk w pageBase pageEnd maxLeaders MAX_BLOCK start { d with pending := rest, done := insert start d.done }) := by
  have hdone := @walk_done w pageBase pageEnd maxLeaders MAX_BLOCK start
    { d with pending := rest, done := insert start d.done }
  refine ⟨?_, fun t => ?_⟩
  · rw [walk_eq]
    exact h.closing.visit hp
  · rw [hdone, walk_eq]
    dsimp only
    rw [Finset.mem_union, h.back]
    constructor
    · rintro (⟨x, hx, ht⟩ | ht)
      · exact ⟨x, Finset.mem_insert_of_mem hx, ht⟩
      · exact ⟨start, Finset.mem_insert_self _ _, ht⟩
    · rintro ⟨x, hx, ht⟩
      rcases Finset.mem_insert.1 hx with rfl | hx
      · exact Or.inr ht
      · exact Or.inl ⟨x, hx, ht⟩

/-- **The loop ends** with nothing to be walked. -/
theorem sound_loop {seeds : List U64} (d : Discovery) (h : Sound w pageBase pageEnd maxLeaders seeds d) :
    Sound w pageBase pageEnd maxLeaders seeds (loop w pageBase pageEnd maxLeaders d) ∧
      (loop w pageBase pageEnd maxLeaders d).pending = [] := by
  induction d using loop.induct w pageBase pageEnd maxLeaders with
  | case1 d hp =>
    rw [loop, hp]
    exact ⟨h, hp⟩
  | case2 d start rest hp hd ih =>
    rw [loop, hp]
    dsimp only
    rw [if_pos hd]
    exact ih ⟨h.closing.skip hp hd, h.back⟩
  | case3 d start rest hp hd ih =>
    rw [loop, hp]
    dsimp only
    rw [if_neg hd]
    exact ih (sound_walk h hp)

end Discovery

instance : IsTrans U64 (· ≤ ·) := ⟨fun _ _ _ => BitVec.le_trans⟩
instance : Std.Antisymm fun a b : U64 => a ≤ b := ⟨fun _ _ => BitVec.le_antisymm⟩
instance : Std.Total fun a b : U64 => a ≤ b := ⟨BitVec.le_total⟩

/-- The leaders of a page, in order, and the targets of its jumps back. -/
def discoverPageLeadersExt (w : CodeWindow) (pageBase pageSpan : U64) (seeds : List U64) (maxLeaders : ℕ) :
    List U64 × Finset U64 :=
  let pageEnd := pageBase + pageSpan
  let d := Discovery.loop w pageBase pageEnd maxLeaders ⟨Worklist.start seeds, ∅⟩
  (d.found.sort (· ≤ ·), d.backTargets)

/-! ## The fixpoint -/

open Discovery (Meets Leads GoesBack Sound edges edgesBack mem_edges mem_edgesBack)

/-- The walk of a leader meets an instruction that leads to `t`, on the page. -/
def LeadsTo (w : CodeWindow) (first stop : ℕ) (leader t : U64) : Prop :=
  (first ≤ t.toNat ∧ t.toNat < stop) ∧ ∃ pc insn next, Meets w stop MAX_BLOCK leader pc insn next ∧ Leads insn pc next t

/-- It meets a branch or a plain jump back to `t`. -/
def JumpsBack (w : CodeWindow) (stop : ℕ) (leader t : U64) : Prop :=
  ∃ pc insn next, Meets w stop MAX_BLOCK leader pc insn next ∧ GoesBack insn pc t

/-- The range of the page lies in the window, and the window in the address space. -/
structure InWindow (w : CodeWindow) (pageBase pageSpan : U64) : Prop where
  first : w.base.toNat ≤ pageBase.toNat
  last : pageBase.toNat + pageSpan.toNat ≤ w.base.toNat + w.code.length
  fits : w.base.toNat + w.code.length ≤ 2 ^ 64

/-- **The leaders of a page are a fixpoint**: sorted, seeds or on the page, and below the cap the least set that holds the
seeds and what its members lead to. -/
structure Fixpoint (w : CodeWindow) (pageBase pageSpan : U64) (seeds : List U64) (maxLeaders : ℕ) : Prop where
  sorted : (discoverPageLeadersExt w pageBase pageSpan seeds maxLeaders).1.Pairwise (· < ·)
  seeded : ∀ t ∈ seeds, t ∈ (discoverPageLeadersExt w pageBase pageSpan seeds maxLeaders).1
  within : ∀ t ∈ (discoverPageLeadersExt w pageBase pageSpan seeds maxLeaders).1,
    t ∈ seeds ∨ pageBase.toNat ≤ t.toNat ∧ t.toNat < pageBase.toNat + pageSpan.toNat
  closed : (discoverPageLeadersExt w pageBase pageSpan seeds maxLeaders).1.length < maxLeaders →
    ∀ x ∈ (discoverPageLeadersExt w pageBase pageSpan seeds maxLeaders).1,
      ∀ t, LeadsTo w pageBase.toNat (pageBase.toNat + pageSpan.toNat) x t →
        t ∈ (discoverPageLeadersExt w pageBase pageSpan seeds maxLeaders).1
  least : (discoverPageLeadersExt w pageBase pageSpan seeds maxLeaders).1.length < maxLeaders →
    ∀ s : Set U64, (∀ t ∈ seeds, t ∈ s) →
      (∀ x ∈ s, ∀ t, LeadsTo w pageBase.toNat (pageBase.toNat + pageSpan.toNat) x t → t ∈ s) →
        ∀ t ∈ (discoverPageLeadersExt w pageBase pageSpan seeds maxLeaders).1, t ∈ s
  order : (discoverPageLeadersExt w pageBase pageSpan seeds maxLeaders).1.length < maxLeaders →
    ∀ seeds' : List U64, (∀ t, t ∈ seeds' ↔ t ∈ seeds) →
      discoverPageLeadersExt w pageBase pageSpan seeds' maxLeaders = discoverPageLeadersExt w pageBase pageSpan seeds maxLeaders
  back : ∀ t, t ∈ (discoverPageLeadersExt w pageBase pageSpan seeds maxLeaders).2 ↔
    ∃ x ∈ (discoverPageLeadersExt w pageBase pageSpan seeds maxLeaders).1, JumpsBack w (pageBase.toNat + pageSpan.toNat) x t

section fixpoint

variable {w : CodeWindow} {pageBase pageSpan : U64} {seeds : List U64} {maxLeaders : ℕ}

/-- The discovery's last state. -/
theorem discovered (w : CodeWindow) (pageBase pageSpan : U64) (seeds : List U64) (maxLeaders : ℕ) :
    ∃ d : Discovery, Sound w pageBase (pageBase + pageSpan) maxLeaders seeds d ∧ d.pending = [] ∧
      discoverPageLeadersExt w pageBase pageSpan seeds maxLeaders = (d.found.sort (· ≤ ·), d.backTargets) := by
  have hstart := @Discovery.sound_start w pageBase (pageBase + pageSpan) maxLeaders seeds
  obtain ⟨hs, hp⟩ := Discovery.sound_loop _ hstart
  exact ⟨_, hs, hp, rfl⟩

theorem sort_sorted (s : Finset U64) : (s.sort (· ≤ ·)).Pairwise (· < ·) := by
  have hnodup := Finset.sort_nodup s (· ≤ ·)
  refine ((Finset.pairwise_sort s (· ≤ ·)).and hnodup).imp fun h => ?_
  exact BitVec.lt_of_le_ne h.1 h.2

/-- Two discoveries below the cap from the same seeds are one. -/
theorem discover_order {seeds' : List U64} (hs : ∀ t, t ∈ seeds' ↔ t ∈ seeds)
    (hcap : (discoverPageLeadersExt w pageBase pageSpan seeds maxLeaders).1.length < maxLeaders) :
    discoverPageLeadersExt w pageBase pageSpan seeds' maxLeaders =
      discoverPageLeadersExt w pageBase pageSpan seeds maxLeaders := by
  obtain ⟨d, hd, hp, he⟩ := discovered w pageBase pageSpan seeds maxLeaders
  obtain ⟨d', hd', hp', he'⟩ := discovered w pageBase pageSpan seeds' maxLeaders
  rw [he] at hcap ⊢
  rw [he']
  rw [Finset.length_sort] at hcap
  have hfound := hd.closing.found_eq hd'.closing hp hp' hs hcap
  have hback : d'.backTargets = d.backTargets := by
    ext t
    rw [hd.back, hd'.back]
    have hdone : ∀ x, x ∈ d'.done ↔ x ∈ d.done := fun x => by
      rw [← hd'.closing.finished hp', ← hd.closing.finished hp, hfound]
    exact ⟨fun ⟨x, hx, ht⟩ => ⟨x, (hdone x).1 hx, ht⟩, fun ⟨x, hx, ht⟩ => ⟨x, (hdone x).2 hx, ht⟩⟩
  rw [hfound, hback]

/-- **A page whose end is an address** has a fixpoint. -/
theorem fixpoint_below (h : pageBase.toNat + pageSpan.toNat < 2 ^ 64) :
    Fixpoint w pageBase pageSpan seeds maxLeaders := by
  have hend : (pageBase + pageSpan).toNat = pageBase.toNat + pageSpan.toNat := by
    rw [BitVec.toNat_add, Nat.mod_eq_of_lt h]
  obtain ⟨d, hd, hp, he⟩ := discovered w pageBase pageSpan seeds maxLeaders
  have hin : ∀ t, Discovery.InPage pageBase (pageBase + pageSpan) t ↔
      pageBase.toNat ≤ t.toNat ∧ t.toNat < pageBase.toNat + pageSpan.toNat := fun t => by
    rw [Discovery.InPage, BitVec.le_def, BitVec.lt_def, hend]
  have hleads : ∀ x t, LeadsTo w pageBase.toNat (pageBase.toNat + pageSpan.toNat) x t ↔
      t ∈ edges w (pageBase + pageSpan).toNat x ∧ Discovery.InPage pageBase (pageBase + pageSpan) t := fun x t => by
    rw [LeadsTo, mem_edges, hin, hend, and_comm]
  refine ⟨?_, ?_, ?_, ?_, ?_, fun hcap _ hs => discover_order hs hcap, ?_⟩
  all_goals rw [he]; dsimp only
  · exact sort_sorted _
  · exact fun t ht => (Finset.mem_sort _).2 (hd.closing.seeded t ht)
  · intro t ht
    rw [← hin]
    exact hd.closing.within ((Finset.mem_sort _).1 ht)
  · intro hcap x hx t ht
    rw [Finset.length_sort] at hcap
    obtain ⟨hx', ha⟩ := (hleads x t).1 ht
    exact (Finset.mem_sort _).2
      (hd.closing.closed hcap x ((hd.closing.finished hp).1 ((Finset.mem_sort _).1 hx)) t hx' ha)
  · intro _ s hs hclosed t ht
    exact hd.closing.least s hs (fun x hx u hu ha => hclosed x hx u ((hleads x u).2 ⟨hu, ha⟩)) t ((Finset.mem_sort _).1 ht)
  · intro t
    rw [hd.back]
    constructor
    · rintro ⟨x, hx, ht⟩
      refine ⟨x, (Finset.mem_sort _).2 ((hd.closing.finished hp).2 hx), ?_⟩
      rw [hend] at ht
      exact mem_edgesBack.1 ht
    · rintro ⟨x, hx, ht⟩
      refine ⟨x, (hd.closing.finished hp).1 ((Finset.mem_sort _).1 hx), ?_⟩
      rw [hend]
      exact mem_edgesBack.2 ht

/-- A page that ends at the end of the address space is not walked. -/
theorem discover_last (h : pageBase.toNat + pageSpan.toNat = 2 ^ 64) :
    discoverPageLeadersExt w pageBase pageSpan seeds maxLeaders = (seeds.toFinset.sort (· ≤ ·), ∅) := by
  have hend : (pageBase + pageSpan).toNat = 0 := by
    rw [BitVec.toNat_add, h, Nat.mod_self]
  obtain ⟨d, hd, hp, he⟩ := discovered w pageBase pageSpan seeds maxLeaders
  have hedges : ∀ x t, t ∉ edges w (pageBase + pageSpan).toNat x := fun x t ht => by
    obtain ⟨pc, insn, next, hm, -⟩ := mem_edges.1 ht
    rw [hend] at hm
    cases hm with
    | here hstop _ => exact absurd hstop (Nat.not_lt_zero _)
    | later hstop _ _ _ => exact absurd hstop (Nat.not_lt_zero _)
  have hback : ∀ x t, t ∉ edgesBack w (pageBase + pageSpan).toNat x := fun x t ht => by
    obtain ⟨pc, insn, next, hm, -⟩ := mem_edgesBack.1 ht
    rw [hend] at hm
    cases hm with
    | here hstop _ => exact absurd hstop (Nat.not_lt_zero _)
    | later hstop _ _ _ => exact absurd hstop (Nat.not_lt_zero _)
  have hfound : d.found = seeds.toFinset := by
    ext x
    rw [List.mem_toFinset]
    exact ⟨hd.closing.least { y | y ∈ seeds } (fun _ hy => hy) (fun y _ t ht => absurd ht (hedges y t)) x,
      hd.closing.seeded x⟩
  have hnone : d.backTargets = ∅ := by
    ext t
    rw [hd.back]
    exact ⟨fun ⟨x, _, ht⟩ => absurd ht (hback x t), fun ht => absurd ht (Finset.notMem_empty t)⟩
  rw [he, hfound, hnone]

/-- **The leaders of a page are a fixpoint** exactly when its end is an address, or its seeds lead nowhere. -/
theorem fixpoint_iff (hw : InWindow w pageBase pageSpan) : Fixpoint w pageBase pageSpan seeds maxLeaders ↔
    pageBase.toNat + pageSpan.toNat < 2 ^ 64 ∨
      (seeds.toFinset.card < maxLeaders → ∀ x ∈ seeds, ∀ t,
        LeadsTo w pageBase.toNat (pageBase.toNat + pageSpan.toNat) x t → t ∈ seeds) ∧
      ∀ x ∈ seeds, ∀ t, ¬ JumpsBack w (pageBase.toNat + pageSpan.toNat) x t := by
  have hle := le_trans hw.last hw.fits
  rcases Nat.lt_or_ge (pageBase.toNat + pageSpan.toNat) (2 ^ 64) with hlt | hge
  · exact ⟨fun _ => Or.inl hlt, fun _ => fixpoint_below hlt⟩
  · have he := @discover_last w pageBase pageSpan seeds maxLeaders (Nat.le_antisymm hle hge)
    have hmem : ∀ t, t ∈ seeds.toFinset.sort (· ≤ ·) ↔ t ∈ seeds := fun t => by
      rw [Finset.mem_sort, List.mem_toFinset]
    constructor
    · intro h
      refine Or.inr ⟨fun hcap x hx t ht => ?_, fun x hx t ht => ?_⟩
      · have hclosed := h.closed
        rw [he] at hclosed
        dsimp only at hclosed
        rw [Finset.length_sort] at hclosed
        exact (hmem t).1 (hclosed hcap x ((hmem x).2 hx) t ht)
      · have hback := (h.back t).2
        rw [he] at hback
        exact absurd (hback ⟨x, (hmem x).2 hx, ht⟩) (Finset.notMem_empty t)
    · rintro (hlt | ⟨hclosed, hback⟩)
      · exact fixpoint_below hlt
      · refine ⟨?_, ?_, ?_, ?_, ?_, fun hcap _ hs => discover_order hs hcap, ?_⟩
        all_goals rw [he]; dsimp only
        · exact sort_sorted _
        · exact fun t ht => (hmem t).2 ht
        · exact fun t ht => Or.inl ((hmem t).1 ht)
        · intro hcap x hx t ht
          rw [Finset.length_sort] at hcap
          exact (hmem t).2 (hclosed hcap x ((hmem x).1 hx) t ht)
        · exact fun _ s hs _ t ht => hs t ((hmem t).1 ht)
        · refine fun t => ⟨fun ht => absurd ht (Finset.notMem_empty t), ?_⟩
          rintro ⟨x, hx, ht⟩
          exact absurd ht (hback x ((hmem x).1 hx) t)

/-- The last page of the address space, with a jump forward at its head. -/
def lastPage : CodeWindow := ⟨0x6f#8 :: 0#8 :: 0x40#8 :: 0#8 :: List.replicate 4092 0#8, 0xfffffffffffff000⟩

theorem lastPage_inWindow : InWindow lastPage 0xfffffffffffff000 0x1000 := by
  have hlen : lastPage.code.length = 4096 := by
    unfold lastPage
    rw [List.length_cons, List.length_cons, List.length_cons, List.length_cons, List.length_replicate]
  refine ⟨le_refl _, ?_, ?_⟩
  all_goals rw [hlen]; decide

theorem lastPage_leads (stop : ℕ) (h : stop = 2 ^ 64) :
    LeadsTo lastPage (0xfffffffffffff000 : U64).toNat stop 0xfffffffffffff000 0xfffffffffffff004 := by
  have hfetch : lastPage.fetch 0xfffffffffffff000 = some (0x0040006f, 4) := by rfl
  have hstop : (0xfffffffffffff000 : U64).toNat < stop := by
    rw [h]
    decide
  have hjump : Discovery.Leads 0x0040006f 0xfffffffffffff000 (0xfffffffffffff000 + 4) 0xfffffffffffff004 := by
    have h := @Discovery.Leads.jump 0x0040006f 0xfffffffffffff000 (0xfffffffffffff000 + 4) (by decide)
    exact h
  refine ⟨⟨by decide, ?_⟩, _, _, _, .here hstop hfetch, hjump⟩
  rw [h]
  decide

/-- The last page keeps its seeds. -/
theorem lastPage_no_fixpoint :
    discoverPageLeadersExt lastPage 0xfffffffffffff000 0x1000 [0xfffffffffffff000] 512 = ([0xfffffffffffff000], ∅) ∧
      ¬ Fixpoint lastPage 0xfffffffffffff000 0x1000 [0xfffffffffffff000] 512 := by
  have hlast : (0xfffffffffffff000 : U64).toNat + (0x1000 : U64).toNat = 2 ^ 64 := by decide
  have he : discoverPageLeadersExt lastPage 0xfffffffffffff000 0x1000 [0xfffffffffffff000] 512 =
      ([0xfffffffffffff000], ∅) := by
    rw [discover_last hlast, List.toFinset_cons, List.toFinset_nil, Finset.insert_empty, Finset.sort_singleton]
  refine ⟨he, fun h => ?_⟩
  have hclosed := h.closed
  rw [he] at hclosed
  have hmem := hclosed (by decide) 0xfffffffffffff000 (List.mem_singleton_self _) _ (lastPage_leads _ hlast)
  exact absurd hmem (by decide)

/-- The same page anywhere else has its fixpoint. -/
theorem page_fixpoint : Fixpoint ⟨lastPage.code, 0x1000⟩ 0x1000 0x1000 [0x1000] 512 := by
  have hlen : lastPage.code.length = 4096 := by
    unfold lastPage
    rw [List.length_cons, List.length_cons, List.length_cons, List.length_cons, List.length_replicate]
  have hw : InWindow ⟨lastPage.code, 0x1000⟩ 0x1000 0x1000 := by
    refine ⟨le_refl _, ?_, ?_⟩
    all_goals dsimp only; rw [hlen]; decide
  exact (fixpoint_iff hw).2 (Or.inl (by decide))

end fixpoint

end Lish
