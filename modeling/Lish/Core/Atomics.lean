import Lish.Core.Reservation
/-!
# Atomics — LR, SC and the read-modify-write operations

An atomic operation is a load, a store or both at its operand's address.  The A extension gives the new value at the width of the
operation; what is wrong with the hart's operations is their faults: the load half reports as a load,
  a refused access names the physical
address, and nothing looks at the alignment.
-/
namespace Lish

/-! ## The A extension -/

/-- The functions of a read-modify-write operation. -/
inductive AmoFn
  | swap | add | xor | and | or | min | max | minu | maxu
  deriving DecidableEq

/-- The value stored, from the old one and the operand. -/
def AmoFn.apply {w : ℕ} (f : AmoFn) (old src : BitVec w) : BitVec w :=
  match f with
  | swap => src
  | add => old + src
  | xor => old ^^^ src
  | and => old &&& src
  | or => old ||| src
  | min => if old.slt src then old else src
  | max => if src.slt old then old else src
  | minu => if old.ult src then old else src
  | maxu => if src.ult old then old else src

inductive AmoKind
  | lr | sc
  | rmw (f : AmoFn)
  deriving DecidableEq

def amoKind (funct5 : ℕ) : Option AmoKind :=
  match funct5 with
  | 0x02 => some .lr
  | 0x03 => some .sc
  | 0x01 => some (.rmw .swap)
  | 0x00 => some (.rmw .add)
  | 0x04 => some (.rmw .xor)
  | 0x0c => some (.rmw .and)
  | 0x08 => some (.rmw .or)
  | 0x10 => some (.rmw .min)
  | 0x14 => some (.rmw .max)
  | 0x18 => some (.rmw .minu)
  | 0x1c => some (.rmw .maxu)
  | _ => none

def amoBytes (is64 : Bool) : Width := if is64 then .w8 else .w4

theorem not_slt {w : ℕ} {a b : BitVec w} (hne : a ≠ b) : (!a.slt b) = b.slt a := by
  have hint : a.toInt ≠ b.toInt := fun h => hne (BitVec.eq_of_toInt_eq h)
  unfold BitVec.slt
  rw [Bool.eq_iff_iff, Bool.not_eq_true', decide_eq_false_iff_not, decide_eq_true_iff]
  omega

/-- The larger of two values, as the hart finds it. -/
theorem slt_max {w : ℕ} (old src : BitVec w) :
    (if !old.slt src && old != src then old else src) = if src.slt old then old else src := by
  by_cases h : old = src
  · rw [h, ite_self, ite_self]
  · rw [bne_iff_ne.2 h, Bool.and_true, not_slt h]

/-- The low word of a value, as the hart compares it. -/
theorem low_word (v : U64) : ((v.setWidth 32).setWidth 64).setWidth 32 = v.setWidth 32 := by
  rw [BitVec.setWidth_setWidth_of_le _ (by decide), BitVec.setWidth_eq]

theorem low_word_inj {a b : U64} : ((a.setWidth 32).setWidth 64 != (b.setWidth 32).setWidth 64) =
    (a.setWidth 32 != b.setWidth 32) := by
  rw [Bool.eq_iff_iff, bne_iff_ne, bne_iff_ne, ne_eq, ne_eq, not_iff_not]
  refine ⟨fun h => ?_, fun h => by rw [h]⟩
  rw [← low_word a, h, low_word]

theorem low_word_ult (a b : U64) : ((a.setWidth 32).setWidth 64).ult ((b.setWidth 32).setWidth 64) = (a.setWidth 32).ult
    (b.setWidth 32) := by
  have hlow : ∀ v : U64, ((v.setWidth 32).setWidth 64).toNat = (v.setWidth 32).toNat := fun v => BitVec.toNat_setWidth_of_le
    (by decide)
  unfold BitVec.ult
  rw [hlow, hlow]

/-- **The new value** is the function at the width of the operation. -/
theorem amoNew_apply {funct5 : ℕ} {f : AmoFn} (h : amoKind funct5 = some (.rmw f)) (old src : U64) :
    (amoNew funct5 true old src = some (f.apply old src)) ∧
      ∃ new, amoNew funct5 false old src = some new ∧ new.setWidth 32 = f.apply (old.setWidth 32) (src.setWidth 32) := by
  unfold amoKind at h
  split at h <;> cases h
  case h_3 => exact ⟨rfl, _, rfl, rfl⟩
  case h_4 => exact ⟨rfl, _, rfl, BitVec.setWidth_add _ _ (by decide)⟩
  case h_5 => exact ⟨rfl, _, rfl, BitVec.setWidth_xor⟩
  case h_6 => exact ⟨rfl, _, rfl, BitVec.setWidth_and⟩
  case h_7 => exact ⟨rfl, _, rfl, BitVec.setWidth_or⟩
  case h_8 =>
    refine ⟨rfl, _, rfl, ?_⟩
    rw [apply_ite (BitVec.setWidth 32), if_neg Bool.false_ne_true, if_neg Bool.false_ne_true, if_neg Bool.false_ne_true,
      low_word, low_word]
    rfl
  case h_9 =>
    refine ⟨congrArg some (slt_max old src), _, rfl, ?_⟩
    rw [apply_ite (BitVec.setWidth 32), if_neg Bool.false_ne_true, if_neg Bool.false_ne_true, if_neg Bool.false_ne_true,
      low_word, low_word,
      low_word_inj]
    exact slt_max _ _
  case h_10 =>
    refine ⟨rfl, _, rfl, ?_⟩
    rw [apply_ite (BitVec.setWidth 32), if_neg Bool.false_ne_true, if_neg Bool.false_ne_true, low_word_ult]
    rfl
  case h_11 =>
    refine ⟨rfl, _, rfl, ?_⟩
    rw [apply_ite (BitVec.setWidth 32), if_neg Bool.false_ne_true, if_neg Bool.false_ne_true, low_word_ult]
    rfl

/-! ## Refused accesses -/

/-- What a load reports. -/
def LoadFault (e : Exception) : Prop := ∃ a, e = .loadPageFault a ∨ e = .loadAccessFault a

/-- What a store reports. -/
def StoreFault (e : Exception) : Prop := ∃ a, e = .storePageFault a ∨ e = .storeAccessFault a

namespace Machine

variable {β : Type} [Bus β]

theorem findLeaf_error {access : Access} {va : U64} {level : ℕ} {table : U64} {b : β} {e : Exception}
    (h : (findLeaf access va level table b).1 = .error e) : e = fault access va := by
  induction level generalizing table b with
  | zero =>
    unfold findLeaf at h
    rcases hr : Bus.read .w8 b (pteAddrAt table va 0) with ⟨e' | pte, b'⟩
    · rw [hr] at h
      exact (Except.error.inj h).symm
    · rw [hr] at h
      dsimp only at h
      cases he : entryOf pte with
      | bad => rw [he] at h; exact (Except.error.inj h).symm
      | table next => rw [he] at h; exact (Except.error.inj h).symm
      | leaf => rw [he] at h; cases h
  | succ level ih =>
    unfold findLeaf at h
    rcases hr : Bus.read .w8 b (pteAddrAt table va (level + 1)) with ⟨e' | pte, b'⟩
    · rw [hr] at h
      exact (Except.error.inj h).symm
    · rw [hr] at h
      dsimp only at h
      cases he : entryOf pte with
      | bad => rw [he] at h; exact (Except.error.inj h).symm
      | table next => rw [he] at h; exact ih h
      | leaf => rw [he] at h; cases h

theorem takeLeaf_error {m : Machine β} {s : SysCsrs} {va : U64} {access : Access} {leaf : Leaf} {b : β} {e : Exception}
    (h : (m.takeLeaf s va access leaf b).1 = .error e) : e = fault access va := by
  unfold takeLeaf at h
  dsimp only at h
  split_ifs at h with h1 h2
  · exact (Except.error.inj h).symm
  · rcases hr : Bus.write .w8 b leaf.pteAddr (updatePte access leaf.pte) with ⟨e' | u, b'⟩
    · rw [hr] at h
      exact (Except.error.inj h).symm
    · rw [hr] at h
      cases h

/-- **A translation that fails** reports a page fault of its access. -/
theorem translate_error {m : Machine β} {va : U64} {access : Access} {e : Exception} (h : (m.translate va access).1 = .error e) :
    e = fault access va := by
  have hwalk : ∀ s levels, (m.walkTables s levels va access).1 = .error e → e = fault access va := by
    intro s levels h
    unfold walkTables at h
    dsimp only at h
    split_ifs at h
    · exact (Except.error.inj h).symm
    · rcases hr : findLeaf access va (levels - 1) ((s.satp &&& 0xfffffffffff) <<< 12) m.bus with ⟨e' | leaf, b⟩
      · rw [hr] at h
        obtain rfl := Except.error.inj h
        exact findLeaf_error (by rw [hr])
      · rw [hr] at h
        exact takeLeaf_error h
  unfold translate at h
  cases hs : m.cpu.sys with
  | none =>
    rw [hs] at h
    cases h
  | some s =>
    rw [hs] at h
    dsimp only at h
    split_ifs at h
    unfold translateSlow at h
    rw [hs] at h
    dsimp only at h
    split_ifs at h
    · exact hwalk _ _ h
    · exact hwalk _ _ h
    · exact (Except.error.inj h).symm

theorem translateFill_error {m : Machine β} {va : U64} {store : Bool} {e : Exception} (h :
    (m.translateFill va store).1 = .error e) :
    e = fault (if store then .store else .load) va := by
  unfold translateFill at h
  rcases hr : m.translate va (if store then .store else .load) with ⟨e' | pa, m'⟩
  · rw [hr] at h
    obtain rfl := Except.error.inj h
    exact translate_error (by rw [hr])
  · rw [hr] at h
    cases h

theorem TlbOnly.wr {c c' : Cpu} (h : TlbOnly c c') (rd : Fin 32) (v : U64) : TlbOnly (c.wr rd v) (c'.wr rd v) := by
  unfold TlbOnly at h
  rw [h]
  unfold Cpu.wr
  split_ifs <;> rfl

theorem TlbOnly.reserve {c c' : Cpu} (h : TlbOnly c c') (a : Option U64) :
    TlbOnly { c with reservation := a } { c' with reservation := a } := by
  unfold TlbOnly at h
  rw [h]
  rfl

end Machine

namespace Hart

open Machine

variable {β : Type} [Bus β] {m m' : Machine β} {w : Width} {va val : U64}

/-- The operations of a load, and of a store. -/
def Loads : HartOp → Prop
  | .get => True
  | .translate _ access => access = .load
  | .translateFill _ store => store = false
  | .read _ _ => True
  | _ => False

def Stores : HartOp → Prop
  | .get => True
  | .translate _ access => access = .store
  | .translateFill _ store => store = true
  | .write _ _ _ => True
  | _ => False

theorem ld_total (w : Width) (va : U64) : Program.Total Loads (ld w va) := by
  have hbytes : ∀ n, Program.Total Loads (ldBytes va n) := by
    intro n
    induction n with
    | zero => exact .pure _
    | succ n ih => exact ih.bind fun _ => .op rfl fun _ => .op trivial fun _ => .pure _
  refine .op trivial fun c => ?_
  rw [Program.pure_bind]
  split_ifs
  · exact hbytes _
  · exact .op rfl fun _ => .op trivial fun _ => .pure _

theorem st_total (w : Width) (va val : U64) : Program.Total Stores (st w va val) := by
  have hbytes : ∀ n, Program.Total Stores (stBytes va val n) := by
    intro n
    induction n with
    | zero => exact .pure _
    | succ n ih => exact ih.bind fun _ => .op rfl fun _ => .op trivial fun _ => .pure _
  refine .op trivial fun c => ?_
  rw [Program.pure_bind]
  split_ifs
  · exact hbytes _
  · exact .op rfl fun _ => .op trivial fun _ => .pure _

/-- **A load reports as a load**, and a store as a store. -/
theorem ld_error [RefusingBus β] {e : Exception} (h : ((ld w va).run exec m).1 = .error e) : LoadFault e := by
  refine Program.Total.run_raises (E := LoadFault) (fun o s e ho he => ?_) (ld_total w va) h
  cases o with
  | get => cases he
  | translate va access =>
    obtain rfl : access = .load := ho
    exact ⟨_, Or.inl (translate_error he)⟩
  | translateFill va store =>
    obtain rfl : store = false := ho
    exact ⟨_, Or.inl (translateFill_error he)⟩
  | read w pa => exact ⟨_, Or.inr (RefusingBus.read_error w s.bus pa e he)⟩
  | _ => exact ho.elim

theorem st_error [RefusingBus β] {e : Exception} (h : ((st w va val).run exec m).1 = .error e) : StoreFault e := by
  refine Program.Total.run_raises (E := StoreFault) (fun o s e ho he => ?_) (st_total w va val) h
  cases o with
  | get => cases he
  | translate va access =>
    obtain rfl : access = .store := ho
    exact ⟨_, Or.inl (translate_error he)⟩
  | translateFill va store =>
    obtain rfl : store = true := ho
    exact ⟨_, Or.inl (translateFill_error he)⟩
  | write w pa v => exact ⟨_, Or.inr (RefusingBus.write_error w s.bus pa v e he)⟩
  | _ => exact ho.elim

/-! ## Aligned accesses -/

/-- The address of an access is a multiple of its width. -/
def Natural (w : Width) (addr : U64) : Prop := addr.toNat % w.bytes = 0

instance (w : Width) (addr : U64) : Decidable (Natural w addr) := inferInstanceAs (Decidable (_ = _))

theorem natural_whole {c : Cpu} (h : Natural w va) : splits c va w = false := by
  have hle : (va &&& 0xfff).toNat + w.bytes ≤ 0x1000 := by
    unfold Natural at h
    rw [offset_toNat]
    cases w <;> simp only [Width.bytes] at h ⊢ <;> omega
  unfold splits
  rw [decide_eq_false (Nat.not_lt.2 hle), Bool.and_false]

/-- **An aligned load** is one translation and one read. -/
theorem run_ld (h : Natural w va) (m : Machine β) : (ld w va).run exec m =
    ((Program.op (.translateFill va false) fun pa => .op (.read w pa) .pure : Hart U64)).run exec m := by
  change Program.run exec (if splits m.cpu va w = true then ldBytes va w.bytes else do
    let pa ← translateFill va false
    read w pa) m = _
  rw [if_neg (by rw [natural_whole h]; exact Bool.false_ne_true)]
  rfl

/-- **An aligned store** is one translation and one write. -/
theorem run_st (h : Natural w va) (val : U64) (m : Machine β) : (st w va val).run exec m =
    ((Program.op (.translateFill va true) fun pa => .op (.write w pa val) .pure : Hart Unit)).run exec m := by
  change Program.run exec (if splits m.cpu va w = true then stBytes va val w.bytes else do
    let pa ← translateFill va true
    write w pa val) m = _
  rw [if_neg (by rw [natural_whole h]; exact Bool.false_ne_true)]
  rfl

theorem run_ld_ok (h : Natural w va) {v : U64} (hr : (ld w va).run exec m = (.ok v, m')) :
    ∃ pa m₁, m.translateFill va false = (.ok pa, m₁) ∧ Bus.read w m₁.bus pa = (.ok v, m'.bus) ∧ m'.cpu = m₁.cpu := by
  rw [run_ld h, Program.run_op] at hr
  rcases ht : m.translateFill va false with ⟨e | pa, m₁⟩
  · rw [show exec (.translateFill va false) m = _ from ht] at hr
    cases hr
  · rw [show exec (.translateFill va false) m = _ from ht] at hr
    dsimp only at hr
    rw [Program.run_op] at hr
    rcases hb : Bus.read w m₁.bus pa with ⟨e | v', b⟩
    · rw [show exec (.read w pa) m₁ = (.error e, { m₁ with bus := b }) from by rw [exec, onBus, hb]] at hr
      cases hr
    · rw [show exec (.read w pa) m₁ = (.ok v', { m₁ with bus := b }) from by rw [exec, onBus, hb]] at hr
      cases hr
      exact ⟨pa, m₁, rfl, hb, rfl⟩

theorem run_st_error (h : Natural w va) {e : Exception} (hr : m.translateFill va true = (.error e, m')) :
    (st w va val).run exec m = (.error (.storePageFault va), m') := by
  have he := translateFill_error (m := m) (e := e) (by rw [hr])
  rw [run_st h, Program.run_op_error (show exec (.translateFill va true) m = (.error e, m') from hr), he]
  rfl

theorem run_st_ok (h : Natural w va) {pa : U64} {b : β} (hr : m.translateFill va true = (.ok pa, m'))
    (hb : Bus.write w m'.bus pa val = (.ok (), b)) : (st w va val).run exec m = (.ok (), { m' with bus := b }) := by
  rw [run_st h, Program.run_op_ok (show exec (.translateFill va true) m = (.ok pa, m') from hr),
    Program.run_op_ok (show exec (.write w pa val) m' = (.ok (), { m' with bus := b }) from by rw [exec, onBus, hb])]
  rfl

theorem run_st_refused [RefusingBus β] (h : Natural w va) {pa : U64} (hr : m.translateFill va true = (.ok pa, m'))
    (hb : (Bus.write w m'.bus pa val).1 ≠ .ok ()) : ((st w va val).run exec m).1 = .error (.storeAccessFault pa) := by
  rcases hw : Bus.write w m'.bus pa val with ⟨e | u, b⟩
  · obtain rfl := RefusingBus.write_error w m'.bus pa val e (by rw [hw])
    rw [run_st h, Program.run_op_ok (show exec (.translateFill va true) m = (.ok pa, m') from hr),
      Program.run_op_error (show exec (.write w pa val) m' = (.error (.storeAccessFault pa),
        { m' with bus := b }) from by rw [exec, onBus, hw])]
  · rw [hw] at hb
    exact absurd rfl hb

/-- An aligned store that completes, and one that fails. -/
theorem run_st_done (h : Natural w va) (hr : (st w va val).run exec m = (.ok (), m')) :
    ∃ pa m₁, m.translateFill va true = (.ok pa, m₁) ∧ Bus.write w m₁.bus pa val = (.ok (), m'.bus) ∧ m'.cpu = m₁.cpu := by
  rcases ht : m.translateFill va true with ⟨e | pa, m₁⟩
  · rw [run_st_error h ht] at hr
    cases hr
  · rcases hb : Bus.write w m₁.bus pa val with ⟨e | u, b⟩
    · rw [run_st h, Program.run_op_ok (show exec (.translateFill va true) m = (.ok pa, m₁) from ht),
        Program.run_op_error (show exec (.write w pa val) m₁ = (.error e, { m₁ with bus := b }) from by rw [exec, onBus, hb])] at hr
      cases hr
    · rw [run_st_ok h ht hb] at hr
      cases hr
      exact ⟨pa, m₁, rfl, hb, rfl⟩

theorem run_st_failed [RefusingBus β] {e : Exception} (h : Natural w va) (hr : (st w va val).run exec m = (.error e, m')) :
    e = .storePageFault va ∨
      ∃ pa m₁, m.translateFill va true = (.ok pa, m₁) ∧ (Bus.write w m₁.bus pa val).1 ≠ .ok () ∧ e = .storeAccessFault pa := by
  rcases ht : m.translateFill va true with ⟨e' | pa, m₁⟩
  · rw [run_st_error h ht] at hr
    cases hr
    exact Or.inl rfl
  · right
    by_cases hb : (Bus.write w m₁.bus pa val).1 = .ok ()
    · rw [run_st_ok h ht (Prod.ext hb rfl)] at hr
      cases hr
    · have he := run_st_refused h ht hb
      rw [hr] at he
      exact ⟨pa, m₁, rfl, hb, Except.error.inj he⟩

/-! ## The operations -/

/-- The old value as `rd` receives it. -/
def amoOld (is64 : Bool) (v : U64) : U64 := (v.setWidth (8 * (amoBytes is64).bytes)).signExtend 64

theorem amoLoad_eq (is64 : Bool) (addr : U64) : amoLoad is64 addr = (ld (amoBytes is64) addr).bind fun v => .pure
    (amoOld is64 v) := by
  cases is64 with
  | false => rfl
  | true =>
    have hid : (fun v : U64 => (Program.pure (amoOld true v) : Hart U64)) = .pure := by
      funext v
      unfold amoOld
      rw [show 8 * (amoBytes true).bytes = 64 from rfl, BitVec.setWidth_eq, BitVec.signExtend_eq]
    rw [hid, Program.bind_pure]
    rfl

theorem amoStore_eq (is64 : Bool) (addr v : U64) : amoStore is64 addr v = st (amoBytes is64) addr v := by
  unfold amoStore amoBytes
  rfl

/-- The new value at the width of the operation, from the one loaded. -/
theorem amoNew_old {funct5 : ℕ} {f : AmoFn} (h : amoKind funct5 = some (.rmw f)) (is64 : Bool) (v src : U64) :
    ∃ new, amoNew funct5 is64 (amoOld is64 v) src = some new ∧ new.setWidth (8 * (amoBytes is64).bytes) =
      f.apply (v.setWidth (8 * (amoBytes is64).bytes)) (src.setWidth (8 * (amoBytes is64).bytes)) := by
  obtain ⟨h64, new, hnew, happ⟩ := amoNew_apply h (amoOld is64 v) src
  cases is64 with
  | false =>
    refine ⟨new, hnew, ?_⟩
    have hold : (amoOld false v).setWidth 32 = v.setWidth 32 := by
      apply BitVec.eq_of_getLsbD_eq
      intro i hi
      rw [BitVec.getLsbD_setWidth, amoOld, BitVec.getLsbD_signExtend]
      have hi64 : i < 64 := by omega
      have hi' : i < 8 * (amoBytes false).bytes := hi
      simp only [hi, hi64, decide_true, Bool.true_and, if_true, BitVec.getLsbD_setWidth, hi']
    rw [hold] at happ
    exact happ
  | true =>
    have hold : amoOld true v = v := by
      unfold amoOld
      rw [show 8 * (amoBytes true).bytes = 64 from rfl, BitVec.setWidth_eq, BitVec.signExtend_eq]
    rw [hold] at h64 ⊢
    refine ⟨_, h64, ?_⟩
    rw [show 8 * (amoBytes true).bytes = 64 from rfl, BitVec.setWidth_eq, BitVec.setWidth_eq, BitVec.setWidth_eq]

variable {insn : U32} {is64 : Bool} {f : AmoFn} {e : Exception} {v : U64} {m₁ m₂ : Machine β}

section Runs

variable (hw : amoWidth (funct3 insn) = some is64)

include hw

theorem execAmo_eq_lr (hk : amoKind (funct7 insn / 4) = some .lr) (c : Cpu) : execAmo c insn = (amoLoad is64 (c.x
    (rs1 insn))).bind fun v =>
    .op (.cpu (.reserve (some (c.x (rs1 insn))))) fun _ => .op (.cpu (.wr (rd insn) v)) .pure := by
  unfold amoKind at hk
  split at hk <;> cases hk
  next hf =>
    unfold execAmo
    rw [hw, hf]
    rfl

theorem execAmo_eq_sc (hk : amoKind (funct7 insn / 4) = some .sc) (c : Cpu) : execAmo c insn =
    (scStore c is64 (c.x (rs1 insn)) (c.x (rs2 insn))).bind fun status =>
      .op (.cpu (.wr (rd insn) status)) fun _ => .op (.cpu (.reserve none)) .pure := by
  unfold amoKind at hk
  split at hk <;> cases hk
  next hf =>
    unfold execAmo
    rw [hw, hf]
    rfl

theorem execAmo_eq_rmw (hk : amoKind (funct7 insn / 4) = some (.rmw f)) (c : Cpu) : execAmo c insn =
    (amoLoad is64 (c.x (rs1 insn))).bind fun old =>
      (require insn (amoNew (funct7 insn / 4) is64 old (c.x (rs2 insn)))).bind fun new =>
        (amoStore is64 (c.x (rs1 insn)) new).bind fun _ => .op (.cpu (.wr (rd insn) old)) .pure := by
  unfold amoKind at hk
  split at hk <;> cases hk
  all_goals
    next hf =>
      unfold execAmo
      rw [hw, hf]
      rfl

theorem run_lr_ok (hk : amoKind (funct7 insn / 4) = some .lr)
    (hl : (ld (amoBytes is64) (m.cpu.x (rs1 insn))).run exec m = (.ok v, m₁)) : (execAmo m.cpu insn).run exec m =
      (.ok (), { m₁ with cpu := { m₁.cpu with reservation := some (m.cpu.x (rs1 insn)) }.wr (rd insn) (amoOld is64 v) }) := by
  rw [execAmo_eq_lr hw hk, amoLoad_eq, Program.run_bind, Program.run_bind, hl]
  rfl

theorem run_lr_error (hk : amoKind (funct7 insn / 4) = some .lr)
    (hl : (ld (amoBytes is64) (m.cpu.x (rs1 insn))).run exec m = (.error e, m₁)) :
    (execAmo m.cpu insn).run exec m = (.error e, m₁) := by
  rw [execAmo_eq_lr hw hk, amoLoad_eq, Program.run_bind, Program.run_bind, hl]

theorem run_sc_free (hk : amoKind (funct7 insn / 4) = some .sc) (hr : m.cpu.reservation ≠ some (m.cpu.x (rs1 insn))) :
    (execAmo m.cpu insn).run exec m = (.ok (), { m with cpu := { m.cpu.wr (rd insn) 1 with reservation := none } }) := by
  rw [execAmo_eq_sc hw hk, Program.run_bind, scStore, if_neg hr]
  rfl

theorem run_sc_ok (hk : amoKind (funct7 insn / 4) = some .sc) (hr : m.cpu.reservation = some (m.cpu.x (rs1 insn)))
    (hs : (st (amoBytes is64) (m.cpu.x (rs1 insn)) (m.cpu.x (rs2 insn))).run exec m = (.ok (), m₁)) :
    (execAmo m.cpu insn).run exec m = (.ok (), { m₁ with cpu := { m₁.cpu.wr (rd insn) 0 with reservation := none } }) := by
  rw [execAmo_eq_sc hw hk, Program.run_bind, scStore, if_pos hr, amoStore_eq, Program.bind_eq, Program.run_bind, hs]
  rfl

theorem run_sc_error (hk : amoKind (funct7 insn / 4) = some .sc) (hr : m.cpu.reservation = some (m.cpu.x (rs1 insn)))
    (hs : (st (amoBytes is64) (m.cpu.x (rs1 insn)) (m.cpu.x (rs2 insn))).run exec m = (.error e, m₁)) :
    (execAmo m.cpu insn).run exec m = (.error e, m₁) := by
  rw [execAmo_eq_sc hw hk, Program.run_bind, scStore, if_pos hr, amoStore_eq, Program.bind_eq, Program.run_bind, hs]

theorem run_rmw_load_error (hk : amoKind (funct7 insn / 4) = some (.rmw f))
    (hl : (ld (amoBytes is64) (m.cpu.x (rs1 insn))).run exec m = (.error e, m₁)) :
    (execAmo m.cpu insn).run exec m = (.error e, m₁) := by
  rw [execAmo_eq_rmw hw hk, amoLoad_eq, Program.run_bind, Program.run_bind, hl]

/-- The store half, after a load half that was answered. -/
theorem run_rmw (hk : amoKind (funct7 insn / 4) = some (.rmw f))
    (hl : (ld (amoBytes is64) (m.cpu.x (rs1 insn))).run exec m = (.ok v, m₁)) {new : U64}
    (hn : amoNew (funct7 insn / 4) is64 (amoOld is64 v) (m.cpu.x (rs2 insn)) = some new) :
    (execAmo m.cpu insn).run exec m = ((st (amoBytes is64) (m.cpu.x (rs1 insn)) new).bind fun _ =>
      .op (.cpu (.wr (rd insn) (amoOld is64 v))) .pure).run exec m₁ := by
  rw [execAmo_eq_rmw hw hk, amoLoad_eq, Program.run_bind, Program.run_bind, hl]
  dsimp only
  rw [Program.run_pure]
  dsimp only
  rw [hn, ← amoStore_eq]
  rfl

theorem run_rmw_ok (hk : amoKind (funct7 insn / 4) = some (.rmw f))
    (hl : (ld (amoBytes is64) (m.cpu.x (rs1 insn))).run exec m = (.ok v, m₁)) {new : U64}
    (hn : amoNew (funct7 insn / 4) is64 (amoOld is64 v) (m.cpu.x (rs2 insn)) = some new)
    (hs : (st (amoBytes is64) (m.cpu.x (rs1 insn)) new).run exec m₁ = (.ok (), m₂)) :
    (execAmo m.cpu insn).run exec m = (.ok (), { m₂ with cpu := m₂.cpu.wr (rd insn) (amoOld is64 v) }) := by
  rw [run_rmw hw hk hl hn, Program.run_bind, hs]
  rfl

theorem run_rmw_store_error (hk : amoKind (funct7 insn / 4) = some (.rmw f))
    (hl : (ld (amoBytes is64) (m.cpu.x (rs1 insn))).run exec m = (.ok v, m₁)) {new : U64}
    (hn : amoNew (funct7 insn / 4) is64 (amoOld is64 v) (m.cpu.x (rs2 insn)) = some new)
    (hs : (st (amoBytes is64) (m.cpu.x (rs1 insn)) new).run exec m₁ = (.error e, m₂)) :
    (execAmo m.cpu insn).run exec m = (.error e, m₂) := by
  rw [run_rmw hw hk hl hn, Program.run_bind, hs]

end Runs

end Hart

/-! ## What is required -/

namespace Hart

open Machine

variable {β : Type} [RamBus β] {m m' m₁ m₂ : Machine β} {insn : U32} {is64 : Bool} {f : AmoFn} {e : Exception} {w :
  Width} {va v : U64}

/-- Registers and memory are as before. -/
def Untouched (m m' : Machine β) : Prop := TlbOnly m.cpu m'.cpu ∧ RamBus.ram m'.bus = RamBus.ram m.bus

theorem tlbOnly_run {α : Type} {Q : α → Prop} {p : Hart α} (hp : Program.Shape Accesses Q p) (m : Machine β) :
    TlbOnly m.cpu (p.run exec m).2.cpu := by
  refine Program.run_invariant (J := fun s : Machine β => TlbOnly m.cpu s.cpu) (fun s o hs ho => ?_) p (.refl _)
    (hp.only.guarded (fun _ _ h => h) m)
  have hf := (exec_frame busRel_true o s).2
  cases o with
  | cpu u => exact ho.elim
  | csrWrite insn csr v => exact ho.elim
  | _ => exact hs.trans hf

/-- LR: `rd` receives the value at the address, and the address is reserved. -/
def LrDone (m : Machine β) (insn : U32) (is64 : Bool) (m' : Machine β) : Prop :=
  ∃ pa m₁ v, m.translateFill (m.cpu.x (rs1 insn)) false = (.ok pa, m₁) ∧
    Bus.read (amoBytes is64) m₁.bus pa = (.ok v, m'.bus) ∧
    TlbOnly ({ m.cpu with reservation := some (m.cpu.x (rs1 insn)) }.wr (rd insn) (amoOld is64 v)) m'.cpu

/-- SC: with the address reserved the operand is stored and `rd` is 0, else `rd` is 1; nothing is reserved any more. -/
def ScDone (m : Machine β) (insn : U32) (is64 : Bool) (m' : Machine β) : Prop :=
  (m.cpu.reservation = some (m.cpu.x (rs1 insn)) ∧ ∃ pa m₁, m.translateFill (m.cpu.x (rs1 insn)) true = (.ok pa, m₁) ∧
    Bus.write (amoBytes is64) m₁.bus pa (m.cpu.x (rs2 insn)) = (.ok (), m'.bus) ∧
    TlbOnly { m.cpu.wr (rd insn) 0 with reservation := none } m'.cpu) ∨
  (m.cpu.reservation ≠ some (m.cpu.x (rs1 insn)) ∧ m' = { m with cpu := { m.cpu.wr (rd insn) 1 with reservation := none } })

/-- A read-modify-write: the new value takes the place of the old one, which `rd` receives. -/
def RmwDone (m : Machine β) (insn : U32) (is64 : Bool) (f : AmoFn) (m' : Machine β) : Prop :=
  ∃ pa m₁ v b₁ m₂ new, m.translateFill (m.cpu.x (rs1 insn)) false = (.ok pa, m₁) ∧
    Bus.read (amoBytes is64) m₁.bus pa = (.ok v, b₁) ∧
    ({ m₁ with bus := b₁ } : Machine β).translateFill (m.cpu.x (rs1 insn)) true = (.ok pa, m₂) ∧
    Bus.write (amoBytes is64) m₂.bus pa new = (.ok (), m'.bus) ∧
    new.setWidth (8 * (amoBytes is64).bytes) =
      f.apply (v.setWidth (8 * (amoBytes is64).bytes)) ((m.cpu.x (rs2 insn)).setWidth (8 * (amoBytes is64).bytes)) ∧
    TlbOnly (m.cpu.wr (rd insn) (amoOld is64 v)) m'.cpu

def AmoDone (m : Machine β) (insn : U32) (is64 : Bool) (k : AmoKind) (m' : Machine β) : Prop :=
  match k with
  | .lr => LrDone m insn is64 m'
  | .sc => ScDone m insn is64 m'
  | .rmw f => RmwDone m insn is64 f m'

/-- The address may be loaded from, or stored to. -/
def CanLoad (m : Machine β) (w : Width) (va : U64) : Prop :=
  ∃ pa m₁ v, m.translateFill va false = (.ok pa, m₁) ∧ (Bus.read w m₁.bus pa).1 = .ok v

def CanStore (m : Machine β) (w : Width) (va : U64) : Prop :=
  ∃ pa m₁, m.translateFill va true = (.ok pa, m₁) ∧ ∀ val, (Bus.write w m₁.bus pa val).1 = .ok ()

/-- The accesses of the operation are permitted: a store follows the load of a read-modify-write. -/
def Permitted (m : Machine β) (insn : U32) (is64 : Bool) (k : AmoKind) : Prop :=
  match k with
  | .lr => CanLoad m (amoBytes is64) (m.cpu.x (rs1 insn))
  | .sc => m.cpu.reservation = some (m.cpu.x (rs1 insn)) → CanStore m (amoBytes is64) (m.cpu.x (rs1 insn))
  | .rmw _ => CanLoad m (amoBytes is64) (m.cpu.x (rs1 insn)) ∧
      CanStore ((ld (amoBytes is64) (m.cpu.x (rs1 insn))).run exec m).2 (amoBytes is64) (m.cpu.x (rs1 insn))

/-- What the A extension requires of an atomic operation run from `m`, given how it ends. -/
structure AmoExact (m : Machine β) (insn : U32) (is64 : Bool) (k : AmoKind) (r : Except Exception Unit × Machine β) : Prop where
  permitted : Natural (amoBytes is64) (m.cpu.x (rs1 insn)) → Permitted m insn is64 k → r.1 = .ok ()
  done : Natural (amoBytes is64) (m.cpu.x (rs1 insn)) → r.1 = .ok () → AmoDone m insn is64 k r.2
  misaligned : ¬ Natural (amoBytes is64) (m.cpu.x (rs1 insn)) →
    ∃ e, r.1 = .error e ∧ (m.cpu.causeOf e).1 ∈ [4, 5, 6, 7] ∧ Untouched m r.2
  fault : k ≠ .lr → ∀ e, r.1 = .error e → (m.cpu.causeOf e).1 ∈ [6, 7, 15] ∧ (m.cpu.causeOf e).2 = m.cpu.x (rs1 insn)

/-! ## When it is met -/

/-- A store that is translated and refused names the address of the operation: the physical address is the same. -/
def NamedByStore (m : Machine β) (w : Width) (va val : U64) : Prop :=
  ∀ pa m', m.translateFill va true = (.ok pa, m') → (Bus.write w m'.bus pa val).1 ≠ .ok () → pa = va

/-- An aligned LR does what it must, and a misaligned one whose load the bus refuses. -/
def LrMet (m : Machine β) (insn : U32) (is64 : Bool) : Prop :=
  Natural (amoBytes is64) (m.cpu.x (rs1 insn)) ∨
    ∃ a m', (ld (amoBytes is64) (m.cpu.x (rs1 insn))).run exec m = (.error (.loadAccessFault a), m') ∧
      RamBus.ram m'.bus = RamBus.ram m.bus

/-- An aligned SC does what it must unless its store is refused at another address; a misaligned one only if it is refused at its own. -/
def ScMet (m : Machine β) (insn : U32) (is64 : Bool) : Prop :=
  (Natural (amoBytes is64) (m.cpu.x (rs1 insn)) ∧
    (m.cpu.reservation = some (m.cpu.x (rs1 insn)) → NamedByStore m (amoBytes is64) (m.cpu.x (rs1 insn)) (m.cpu.x (rs2 insn)))) ∨
  (¬ Natural (amoBytes is64) (m.cpu.x (rs1 insn)) ∧ m.cpu.reservation = some (m.cpu.x (rs1 insn)) ∧
    ∃ m', (st (amoBytes is64) (m.cpu.x (rs1 insn)) (m.cpu.x (rs2 insn))).run exec m =
      (.error (.storeAccessFault (m.cpu.x (rs1 insn))), m') ∧ RamBus.ram m'.bus = RamBus.ram m.bus)

/-- A read-modify-write does what it must only if its load is answered.  An aligned one then stores where it loaded,
  or its store is refused
at its own address; a misaligned one must be refused there. -/
def RmwMet (m : Machine β) (insn : U32) (is64 : Bool) : Prop :=
  ∃ v m₁ new, (ld (amoBytes is64) (m.cpu.x (rs1 insn))).run exec m = (.ok v, m₁) ∧
    amoNew (funct7 insn / 4) is64 (amoOld is64 v) (m.cpu.x (rs2 insn)) = some new ∧
    ((Natural (amoBytes is64) (m.cpu.x (rs1 insn)) ∧ NamedByStore m₁ (amoBytes is64) (m.cpu.x (rs1 insn)) new ∧
      ∀ pa m₂, m₁.translateFill (m.cpu.x (rs1 insn)) true = (.ok pa, m₂) → (Bus.write (amoBytes is64) m₂.bus pa new).1 = .ok () →
        (m.translateFill (m.cpu.x (rs1 insn)) false).1 = .ok pa) ∨
    (¬ Natural (amoBytes is64) (m.cpu.x (rs1 insn)) ∧
      ∃ m₂, (st (amoBytes is64) (m.cpu.x (rs1 insn)) new).run exec m₁ = (.error (.storeAccessFault (m.cpu.x (rs1 insn))), m₂) ∧
        RamBus.ram m₂.bus = RamBus.ram m.bus))

def AmoMet (m : Machine β) (insn : U32) (is64 : Bool) (k : AmoKind) : Prop :=
  match k with
  | .lr => LrMet m insn is64
  | .sc => ScMet m insn is64
  | .rmw _ => RmwMet m insn is64

theorem tlbOnly_ld {r : Except Exception U64} (h : (ld w va).run exec m = (r, m')) : TlbOnly m.cpu m'.cpu := by
  have hk := tlbOnly_run (ld_accesses w va) m
  rwa [h] at hk

theorem tlbOnly_st {val : U64} {r : Except Exception Unit} (h : (st w va val).run exec m = (r, m')) : TlbOnly m.cpu m'.cpu := by
  have hk := tlbOnly_run (st_accesses w va val) m
  rwa [h] at hk

theorem canLoad_run (hn : Natural w va) (h : CanLoad m w va) : ∃ v m', (ld w va).run exec m = (.ok v, m') := by
  obtain ⟨pa, m₁, v, ht, hb⟩ := h
  refine ⟨v, { m₁ with bus := (Bus.read w m₁.bus pa).2 }, ?_⟩
  rw [run_ld hn, Program.run_op_ok (show exec (.translateFill va false) m = (.ok pa, m₁) from ht),
    Program.run_op_ok (show exec (.read w pa) m₁ = (.ok v, { m₁ with bus := (Bus.read w m₁.bus pa).2 }) from by
      rw [exec, onBus, show Bus.read w m₁.bus pa = (.ok v, (Bus.read w m₁.bus pa).2) from Prod.ext hb rfl])]
  rfl

theorem canStore_run (hn : Natural w va) (h : CanStore m w va) (val : U64) : ∃ m', (st w va val).run exec m = (.ok (), m') := by
  obtain ⟨pa, m₁, ht, hb⟩ := h
  exact ⟨_, run_st_ok hn ht (Prod.ext (hb val) rfl)⟩

section Exact

variable [RefusingBus β] (hw : amoWidth (funct3 insn) = some is64)

include hw

theorem lr_exact (hk : amoKind (funct7 insn / 4) = some .lr) :
    AmoExact m insn is64 .lr ((execAmo m.cpu insn).run exec m) ↔ LrMet m insn is64 := by
  rcases hl : (ld (amoBytes is64) (m.cpu.x (rs1 insn))).run exec m with ⟨e | v, m₁⟩
  · rw [run_lr_error hw hk hl]
    constructor
    · intro h
      by_cases hn : Natural (amoBytes is64) (m.cpu.x (rs1 insn))
      · exact Or.inl hn
      · obtain ⟨e', he, hc, hu⟩ := h.misaligned hn
        obtain rfl : e = e' := Except.error.inj he
        obtain ⟨a, rfl | rfl⟩ := ld_error (by rw [hl])
        · exact absurd (show (13 : U64) ∈ [4, 5, 6, 7] from hc) (by decide)
        · exact Or.inr ⟨a, m₁, hl, hu.2⟩
    · intro h
      refine ⟨fun hn hp => ?_, fun _ hok => (nomatch hok), fun hn => ?_, fun hne => absurd rfl hne⟩
      · obtain ⟨v, m', hv⟩ := canLoad_run hn hp
        rw [hl] at hv
        cases hv
      · rcases h with hn' | ⟨a, m', hr, hram⟩
        · exact absurd hn' hn
        · rw [hl] at hr
          cases hr
          exact ⟨_, rfl, show (5 : U64) ∈ [4, 5, 6, 7] by decide, tlbOnly_ld hl, hram⟩
  · rw [run_lr_ok hw hk hl]
    constructor
    · intro h
      refine Or.inl (not_not.1 fun hn => ?_)
      obtain ⟨e, he, -⟩ := h.misaligned hn
      cases he
    · intro h
      have hn : Natural (amoBytes is64) (m.cpu.x (rs1 insn)) := by
        rcases h with hn | ⟨a, m', hr, -⟩
        · exact hn
        · rw [hl] at hr
          cases hr
      refine ⟨fun _ _ => rfl, fun _ _ => ?_, fun hn' => absurd hn hn', fun hne => absurd rfl hne⟩
      obtain ⟨pa, m₂, ht, hb, -⟩ := run_ld_ok hn hl
      exact ⟨pa, m₂, v, ht, hb, (TlbOnly.reserve (tlbOnly_ld hl) _).wr _ _⟩

theorem sc_exact (hk : amoKind (funct7 insn / 4) = some .sc) :
    AmoExact m insn is64 .sc ((execAmo m.cpu insn).run exec m) ↔ ScMet m insn is64 := by
  by_cases hr : m.cpu.reservation = some (m.cpu.x (rs1 insn))
  · rcases hs : (st (amoBytes is64) (m.cpu.x (rs1 insn)) (m.cpu.x (rs2 insn))).run exec m with ⟨e | u, m₁⟩
    · rw [run_sc_error hw hk hr hs]
      constructor
      · intro h
        by_cases hn : Natural (amoBytes is64) (m.cpu.x (rs1 insn))
        · refine Or.inl ⟨hn, fun _ pa m' ht hb => ?_⟩
          have he := run_st_refused hn ht hb
          rw [hs] at he
          obtain rfl := Except.error.inj he
          exact (h.fault (fun h => nomatch h) _ rfl).2
        · obtain ⟨e', he, hc, hu⟩ := h.misaligned hn
          obtain rfl : e = e' := Except.error.inj he
          obtain ⟨a, rfl | rfl⟩ := st_error (by rw [hs])
          · exact absurd (show (15 : U64) ∈ [4, 5, 6, 7] from hc) (by decide)
          · obtain rfl : a = m.cpu.x (rs1 insn) := (h.fault (fun h => nomatch h) _ rfl).2
            exact Or.inr ⟨hn, hr, m₁, hs, hu.2⟩
      · intro h
        refine ⟨fun hn hp => ?_, fun _ hok => (nomatch hok), fun hn => ?_, fun _ e' he => ?_⟩
        · obtain ⟨m', hv⟩ := canStore_run hn (hp hr) (m.cpu.x (rs2 insn))
          rw [hs] at hv
          cases hv
        · rcases h with ⟨hn', -⟩ | ⟨-, -, m', hst, hram⟩
          · exact absurd hn' hn
          · rw [hs] at hst
            cases hst
            exact ⟨_, rfl, show (7 : U64) ∈ [4, 5, 6, 7] by decide, tlbOnly_st hs, hram⟩
        · obtain rfl : e = e' := Except.error.inj he
          rcases h with ⟨hn, hat⟩ | ⟨-, -, m', hst, -⟩
          · rcases run_st_failed hn hs with rfl | ⟨pa, m', ht, hb, rfl⟩
            · exact ⟨show (15 : U64) ∈ [6, 7, 15] by decide, rfl⟩
            · exact ⟨show (7 : U64) ∈ [6, 7, 15] by decide, hat hr pa m' ht hb⟩
          · rw [hs] at hst
            cases hst
            exact ⟨show (7 : U64) ∈ [6, 7, 15] by decide, rfl⟩
    · rw [run_sc_ok hw hk hr hs]
      constructor
      · intro h
        have hn : Natural (amoBytes is64) (m.cpu.x (rs1 insn)) := not_not.1 fun hn => by
          obtain ⟨e, he, -⟩ := h.misaligned hn
          cases he
        refine Or.inl ⟨hn, fun _ pa m' ht hb => ?_⟩
        have he := run_st_refused hn ht hb
        rw [hs] at he
        cases he
      · intro h
        have hn : Natural (amoBytes is64) (m.cpu.x (rs1 insn)) := by
          rcases h with ⟨hn, -⟩ | ⟨-, -, m', hst, -⟩
          · exact hn
          · rw [hs] at hst
            cases hst
        refine ⟨fun _ _ => rfl, fun _ _ => ?_, fun hn' => absurd hn hn', fun _ e he => (nomatch he)⟩
        obtain ⟨pa, m₂, ht, hb, -⟩ := run_st_done hn hs
        exact Or.inl ⟨hr, pa, m₂, ht, hb, TlbOnly.reserve ((tlbOnly_st hs).wr _ _) _⟩
  · rw [run_sc_free hw hk hr]
    constructor
    · intro h
      refine Or.inl ⟨not_not.1 fun hn => ?_, fun hr' => absurd hr' hr⟩
      obtain ⟨e, he, -⟩ := h.misaligned hn
      cases he
    · intro h
      have hn : Natural (amoBytes is64) (m.cpu.x (rs1 insn)) := by
        rcases h with ⟨hn, -⟩ | ⟨-, hr', -⟩
        · exact hn
        · exact absurd hr' hr
      exact ⟨fun _ _ => rfl, fun _ _ => Or.inr ⟨hr, rfl⟩, fun hn' => absurd hn hn', fun _ e he => (nomatch he)⟩

theorem rmw_exact (hk : amoKind (funct7 insn / 4) = some (.rmw f)) :
    AmoExact m insn is64 (.rmw f) ((execAmo m.cpu insn).run exec m) ↔ RmwMet m insn is64 := by
  rcases hl : (ld (amoBytes is64) (m.cpu.x (rs1 insn))).run exec m with ⟨e | v, m₁⟩
  · rw [run_rmw_load_error hw hk hl]
    constructor
    · intro h
      have hc := (h.fault (fun h => nomatch h) e rfl).1
      obtain ⟨a, rfl | rfl⟩ := ld_error (by rw [hl])
      · exact absurd (show (13 : U64) ∈ [6, 7, 15] from hc) (by decide)
      · exact absurd (show (5 : U64) ∈ [6, 7, 15] from hc) (by decide)
    · rintro ⟨v, m', new, hv, -⟩
      rw [hl] at hv
      cases hv
  · obtain ⟨new, hnew, happ⟩ := amoNew_old hk is64 v (m.cpu.x (rs2 insn))
    rcases hs : (st (amoBytes is64) (m.cpu.x (rs1 insn)) new).run exec m₁ with ⟨e | u, m₂⟩
    · rw [run_rmw_store_error hw hk hl hnew hs]
      constructor
      · intro h
        refine ⟨v, m₁, new, hl, hnew, ?_⟩
        by_cases hn : Natural (amoBytes is64) (m.cpu.x (rs1 insn))
        · refine Or.inl ⟨hn, fun pa m' ht hb => ?_, fun pa m' ht hb => ?_⟩
          · have he := run_st_refused hn ht hb
            rw [hs] at he
            obtain rfl := Except.error.inj he
            exact (h.fault (fun h => nomatch h) _ rfl).2
          · rw [run_st_ok hn ht (Prod.ext hb rfl)] at hs
            cases hs
        · obtain ⟨e', he, hc, hu⟩ := h.misaligned hn
          obtain rfl : e = e' := Except.error.inj he
          obtain ⟨a, rfl | rfl⟩ := st_error (by rw [hs])
          · exact absurd (show (15 : U64) ∈ [4, 5, 6, 7] from hc) (by decide)
          · obtain rfl : a = m.cpu.x (rs1 insn) := (h.fault (fun h => nomatch h) _ rfl).2
            exact Or.inr ⟨hn, m₂, hs, hu.2⟩
      · rintro ⟨v', m', new', hv, hnew', h⟩
        rw [hl] at hv
        cases hv
        obtain rfl : new = new' := Option.some.inj (hnew.symm.trans hnew')
        refine ⟨fun hn hp => ?_, fun _ hok => (nomatch hok), fun hn => ?_, fun _ e' he => ?_⟩
        · have hp' := hp.2
          rw [hl] at hp'
          obtain ⟨m', hv⟩ := canStore_run hn hp' new
          rw [hs] at hv
          cases hv
        · rcases h with ⟨hn', -⟩ | ⟨-, m', hst, hram⟩
          · exact absurd hn' hn
          · rw [hs] at hst
            cases hst
            exact ⟨_, rfl, show (7 : U64) ∈ [4, 5, 6, 7] by decide, (tlbOnly_ld hl).trans (tlbOnly_st hs), hram⟩
        · obtain rfl : e = e' := Except.error.inj he
          rcases h with ⟨hn, hat, -⟩ | ⟨-, m', hst, -⟩
          · rcases run_st_failed hn hs with rfl | ⟨pa, m', ht, hb, rfl⟩
            · exact ⟨show (15 : U64) ∈ [6, 7, 15] by decide, rfl⟩
            · exact ⟨show (7 : U64) ∈ [6, 7, 15] by decide, hat pa m' ht hb⟩
          · rw [hs] at hst
            cases hst
            exact ⟨show (7 : U64) ∈ [6, 7, 15] by decide, rfl⟩
    · rw [run_rmw_ok hw hk hl hnew hs]
      constructor
      · intro h
        have hn : Natural (amoBytes is64) (m.cpu.x (rs1 insn)) := not_not.1 fun hn => by
          obtain ⟨e, he, -⟩ := h.misaligned hn
          cases he
        obtain ⟨pa, m₃, v', b₁, m₄, new', ht, hb, ht', -⟩ := h.done hn rfl
        obtain ⟨pa₁, m₅, ht₁, hb₁, hc₁⟩ := run_ld_ok hn hl
        rw [ht₁] at ht
        cases ht
        rw [hb₁] at hb
        cases hb
        have hm : ({ m₃ with bus := m₁.bus } : Machine β) = m₁ := by rw [← hc₁]
        rw [hm] at ht'
        refine ⟨v, _, new, hl, hnew, Or.inl ⟨hn, fun pa' m' ht₂ hb₂ => ?_, fun pa' m' ht₂ hb₂ => ?_⟩⟩
        · have he := run_st_refused hn ht₂ hb₂
          rw [hs] at he
          cases he
        · rw [ht'] at ht₂
          cases ht₂
          rw [ht₁]
      · rintro ⟨v', m', new', hv, hnew', h⟩
        rw [hl] at hv
        cases hv
        obtain rfl : new = new' := Option.some.inj (hnew.symm.trans hnew')
        rcases h with ⟨hn, -, hat⟩ | ⟨-, m', hst, -⟩
        · refine ⟨fun _ _ => rfl, fun _ _ => ?_, fun hn' => absurd hn hn', fun _ e he => (nomatch he)⟩
          obtain ⟨pa, m₃, ht, hb, hc⟩ := run_ld_ok hn hl
          obtain ⟨pa', m₄, ht', hb', -⟩ := run_st_done hn hs
          have hpa := hat pa' m₄ ht' (by rw [hb'])
          rw [ht] at hpa
          obtain rfl := Except.ok.inj hpa
          refine ⟨pa, m₃, v, m₁.bus, m₄, new, ht, hb, ?_, hb', happ, ((tlbOnly_ld hl).trans (tlbOnly_st hs)).wr _ _⟩
          rw [← hc]
          exact ht'
        · rw [hs] at hst
          cases hst

/-- **The A extension.**  An atomic operation does what it must exactly when `AmoMet` holds of the state before it. -/
theorem amo_exact {k : AmoKind} (hk : amoKind (funct7 insn / 4) = some k) :
    AmoExact m insn is64 k ((execAmo m.cpu insn).run exec m) ↔ AmoMet m insn is64 k := by
  cases k with
  | lr => exact lr_exact hw hk
  | sc => exact sc_exact hw hk
  | rmw f => exact rmw_exact hw hk

end Exact

/-- Sixteen bytes of memory, and an address in `x1`. -/
def atomicHart (addr : U64) : Machine FlatMemory where
  cpu := { Cpu.new with x := fun r => if r = 1 then addr else 7 }
  bus :=
    { base := 0x1000
      len := 16
      mem := fun _ => 1
      fits := by decide
      len_lt := by decide }

/-- `amoadd.w x3, x2, (x1)` -/
def amoaddW : U32 := 0x0020a1af

theorem amo_exact_add : AmoExact (atomicHart 0x1004) amoaddW false (.rmw .add)
    ((execAmo (atomicHart 0x1004).cpu amoaddW).run exec (atomicHart 0x1004)) := by
  refine (amo_exact (k := .rmw .add) rfl rfl).2 ⟨0x01010101, atomicHart 0x1004, 0x01010108, rfl, rfl, Or.inl ⟨by decide, ?_, ?_⟩⟩
  · intro pa m' ht _
    cases ht
    rfl
  · intro pa m' ht _
    cases ht
    rfl

/-- A misaligned operation is performed, and one at an address that does not exist reports a load. -/
theorem amo_inexact :
    ¬ AmoExact (atomicHart 0x1002) amoaddW false (.rmw .add) ((execAmo (atomicHart 0x1002).cpu amoaddW).run exec
      (atomicHart 0x1002)) ∧
    ¬ AmoExact (atomicHart 0x2000) amoaddW false (.rmw .add) ((execAmo (atomicHart 0x2000).cpu amoaddW).run exec
      (atomicHart 0x2000)) := by
  constructor
  · intro h
    obtain ⟨e, he, -⟩ := h.misaligned (by decide)
    have hok : ((execAmo (atomicHart 0x1002).cpu amoaddW).run exec (atomicHart 0x1002)).1 = .ok () := rfl
    rw [hok] at he
    cases he
  · intro h
    have hload := (h.fault (fun h => nomatch h) (.loadAccessFault 0x2000) rfl).1
    exact absurd (show (5 : U64) ∈ [6, 7, 15] from hload) (by decide)

end Hart
end Lish
