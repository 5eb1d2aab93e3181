import Lish.Core.Frame
/-!
# Arms — the operations of each instruction

Instructions reach data by loads and stores only (`Made`), and else operate on registers.  One outside the system and fence
opcodes moves registers and memory only, and goes on at a pc.
-/
namespace Lish
namespace Hart

open Program

/-- Operations that move registers and memory only. -/
def Plain : HartOp → Prop
  | .get | .read _ _ | .write _ _ _ | .translateFill _ _ => True
  | .translate _ access => access ≠ .fetch
  | .cpu (.wr _ _) | .cpu (.setF _ _) | .cpu (.accrue _) | .cpu (.reserve _) | .cpu .fpDirty => True
  | _ => False

/-- Operations that loads and stores are made of. -/
def Accesses : HartOp → Prop
  | .get | .read _ _ | .write _ _ _ | .translateFill _ _ => True
  | .translate _ access => access ≠ .fetch
  | _ => False

theorem accesses_plain (o : HartOp) (h : Accesses o) : Plain o := by
  cases o <;> first | exact h | exact h.elim

variable {P : HartOp → Prop} {α : Type} {Q : α → Prop}

/-! ## Programs over plain operations -/

theorem shape_get {f : Cpu → Hart α} (hP : P .get) (hf : ∀ c, Shape P Q (f c)) : Shape P Q (get.bind f) := .op hP hf

theorem shape_upd {u : CpuOp} (hP : P (.cpu u)) : Shape P (fun _ => True) (upd u) := .op hP fun _ => .pure trivial

theorem shape_require (insn : U32) (a : Option α) (hQ : ∀ v, a = some v → Q v) : Shape P Q (require insn a) := by
  cases a with
  | none => exact .throw _
  | some v => exact .pure (hQ v rfl)

theorem fpCheck_shape (c : Cpu) (insn : U32) : Shape P (fun _ => True) (fpCheck c insn) := by
  unfold fpCheck
  split_ifs
  · exact .throw _
  · exact .pure trivial

theorem ldBytes_accesses (va : U64) (n : ℕ) : Shape Accesses (fun _ => True) (ldBytes va n) := by
  induction n with
  | zero => exact .pure trivial
  | succ n ih => exact ih.bind fun _ _ => .op (nofun) fun _ => .op trivial fun _ => .pure trivial

theorem stBytes_accesses (va val : U64) (n : ℕ) : Shape Accesses (fun _ => True) (stBytes va val n) := by
  induction n with
  | zero => exact .pure trivial
  | succ n ih => exact ih.bind fun _ _ => .op (nofun) fun _ => .op trivial fun _ => .pure trivial

theorem ld_accesses (w : Width) (va : U64) : Shape Accesses (fun _ => True) (ld w va) := by
  refine shape_get trivial fun c => ?_
  split_ifs
  · exact ldBytes_accesses va w.bytes
  · exact .op trivial fun _ => .op trivial fun _ => .pure trivial

theorem st_accesses (w : Width) (va val : U64) : Shape Accesses (fun _ => True) (st w va val) := by
  refine shape_get trivial fun c => ?_
  split_ifs
  · exact stBytes_accesses va val w.bytes
  · exact .op trivial fun _ => .op trivial fun _ => .pure trivial

/-! ## Programs made of loads and stores -/

/-- Loads and stores, and operations that meet `P`; every result meets `Q`. -/
inductive Made (P : HartOp → Prop) (Q : α → Prop) : Hart α → Prop
  | pure {a : α} (h : Q a) : Made P Q (.pure a)
  | throw (e : Exception) : Made P Q (.throw e)
  | op {o : HartOp} {k : o.Ans → Hart α} (ho : P o) (hk : ∀ r, Made P Q (k r)) : Made P Q (.op o k)
  | ld (w : Width) (va : U64) {k : U64 → Hart α} (hk : ∀ v, Made P Q (k v)) : Made P Q ((ld w va).bind k)
  | st (w : Width) (va val : U64) {k : Unit → Hart α} (hk : ∀ u, Made P Q (k u)) : Made P Q ((st w va val).bind k)

theorem Made.bind {γ : Type} {S : γ → Prop} {p : Hart α} {f : α → Hart γ} (hp : Made P Q p) (hf : ∀ a, Q a → Made P S (f a)) :
    Made P S (p.bind f) := by
  induction hp with
  | pure h => exact hf _ h
  | throw e => exact .throw e
  | op ho _ ih => exact .op ho ih
  | ld w va _ ih =>
    rw [bind_assoc]
    exact .ld w va ih
  | st w va val _ ih =>
    rw [bind_assoc]
    exact .st w va val ih

theorem Made.mono {P' : HartOp → Prop} {Q' : α → Prop} (hP : ∀ o, P o → P' o) (hQ : ∀ a, Q a → Q' a) {p : Hart α}
    (hp : Made P Q p) : Made P' Q' p := by
  induction hp with
  | pure h => exact .pure (hQ _ h)
  | throw e => exact .throw e
  | op ho _ ih => exact .op (hP _ ho) ih
  | ld w va _ ih => exact .ld w va ih
  | st w va val _ ih => exact .st w va val ih

/-- **What loads, stores and the operations between them keep**, the program keeps. -/
theorem Made.keeps {β : Type} [Bus β] {J : Machine β → Prop} (hop : ∀ o m, P o → J m → J (Machine.exec o m).2)
    (hld : ∀ w va m, J m → J ((Hart.ld w va).run Machine.exec m).2)
    (hst : ∀ w va val m, J m → J ((Hart.st w va val).run Machine.exec m).2) {p : Hart α} (hp : Made P Q p) {m : Machine β}
    (hm : J m) : J (p.run Machine.exec m).2 := by
  induction hp generalizing m with
  | pure _ => exact hm
  | throw e => exact hm
  | @op o k ho _ ih =>
    have h1 := hop o m ho hm
    rw [run_op]
    rcases hr : Machine.exec o m with ⟨e | r, m'⟩ <;> rw [hr] at h1
    · exact h1
    · exact ih r h1
  | @ld w va k _ ih =>
    have h1 := hld w va m hm
    rw [run_bind]
    rcases hr : (Hart.ld w va).run Machine.exec m with ⟨e | r, m'⟩ <;> rw [hr] at h1
    · exact h1
    · exact ih r h1
  | @st w va val k _ ih =>
    have h1 := hst w va val m hm
    rw [run_bind]
    rcases hr : (Hart.st w va val).run Machine.exec m with ⟨e | r, m'⟩ <;> rw [hr] at h1
    · exact h1
    · exact ih r h1

theorem Made.shape {S : HartOp → Prop} (hP : ∀ o, P o → S o) (hS : ∀ o, Accesses o → S o) {p : Hart α} (hp : Made P Q p) :
    Shape S Q p := by
  induction hp with
  | pure h => exact .pure h
  | throw e => exact .throw e
  | op ho _ ih => exact .op (hP _ ho) ih
  | ld w va _ ih => exact ((ld_accesses w va).mono hS fun _ h => h).bind fun v _ => ih v
  | st w va val _ ih => exact ((st_accesses w va val).mono hS fun _ h => h).bind fun u _ => ih u

/-- Operations that move registers only. -/
def Moves : HartOp → Prop
  | .get => True
  | .cpu (.wr _ _) | .cpu (.setF _ _) | .cpu (.accrue _) | .cpu (.reserve _) | .cpu .fpDirty => True
  | _ => False

theorem moves_plain (o : HartOp) (h : Moves o) : Plain o := by
  unfold Moves at h
  split at h <;> first | exact trivial | exact h.elim

theorem made_get {f : Cpu → Hart α} (hP : P .get) (hf : ∀ c, Made P Q (f c)) : Made P Q (get.bind f) := .op hP hf

theorem made_upd {u : CpuOp} (hP : P (.cpu u)) : Made P (fun _ => True) (upd u) := .op hP fun _ => .pure trivial

theorem made_require (insn : U32) (a : Option α) (hQ : ∀ v, a = some v → Q v) : Made P Q (require insn a) := by
  cases a with
  | none => exact .throw _
  | some v => exact .pure (hQ v rfl)

theorem made_fpCheck (c : Cpu) (insn : U32) : Made P (fun _ => True) (fpCheck c insn) := by
  unfold fpCheck
  split_ifs
  · exact .throw _
  · exact .pure trivial

/-- Computing with registers, the reservation apart. -/
def Computes : HartOp → Prop
  | .get => True
  | .cpu (.wr _ _) | .cpu (.setF _ _) | .cpu (.accrue _) | .cpu .fpDirty => True
  | _ => False

theorem computes_moves (o : HartOp) (h : Computes o) : Moves o := by
  unfold Computes at h
  split at h <;> first | exact trivial | exact h.elim

theorem made_wr (rd : Fin 32) (v : U64) : Made Computes (fun _ => True) (upd (.wr rd v)) := made_upd trivial

theorem made_st (w : Width) (va val : U64) : Made P (fun _ => True) (st w va val) := by
  have h : Made P (fun _ => True) ((st w va val).bind fun _ => .pure ()) := .st w va val fun _ => .pure trivial
  rwa [bind_pure] at h

theorem execLoad_made (c : Cpu) (insn : U32) : Made Computes (fun _ => True) (execLoad c insn) :=
  (made_require insn (loadForm (funct3 insn)) fun _ _ => trivial).bind fun _ _ => .ld _ _ fun _ => made_upd trivial

theorem execStore_made (c : Cpu) (insn : U32) : Made Computes (fun _ => True) (execStore c insn) :=
  (made_require insn (storeWidth (funct3 insn)) fun _ _ => trivial).bind fun _ _ => made_st _ _ _

theorem amoLoad_made (is64 : Bool) (addr : U64) : Made P (fun _ => True) (amoLoad is64 addr) := by
  unfold amoLoad
  split_ifs
  · have h : Made P (fun _ => True) ((ld .w8 addr).bind .pure) := .ld _ _ fun _ => .pure trivial
    rwa [bind_pure] at h
  · exact .ld _ _ fun _ => .pure trivial

theorem scStore_made (c : Cpu) (is64 : Bool) (addr src : U64) : Made P (fun _ => True) (scStore c is64 addr src) := by
  unfold scStore
  split_ifs
  · exact .st _ _ _ fun _ => .pure trivial
  · exact .pure trivial

theorem execAmo_made (c : Cpu) (insn : U32) : Made Moves (fun _ => True) (execAmo c insn) := by
  refine (made_require insn (amoWidth (funct3 insn)) fun _ _ => trivial).bind fun is64 _ => ?_
  split
  · exact (amoLoad_made _ _).bind fun _ _ => (made_upd trivial).bind fun _ _ => made_upd trivial
  · exact (scStore_made _ _ _ _).bind fun _ _ => (made_upd trivial).bind fun _ _ => made_upd trivial
  · exact (amoLoad_made _ _).bind fun _ _ => (made_require insn _ fun _ _ => trivial).bind fun _ _ =>
      (made_st _ _ _).bind fun _ _ => made_upd trivial

theorem execLoadFp_made (c : Cpu) (insn : U32) : Made Computes (fun _ => True) (execLoadFp c insn) :=
  (made_fpCheck c insn).bind fun _ _ => (made_upd trivial).bind fun _ _ =>
    (made_require insn (fpWidth (funct3 insn)) fun _ _ => trivial).bind fun _ _ => .ld _ _ fun _ => made_upd trivial

theorem execStoreFp_made (c : Cpu) (insn : U32) : Made Computes (fun _ => True) (execStoreFp c insn) :=
  (made_fpCheck c insn).bind fun _ _ =>
    (made_require insn (fpWidth (funct3 insn)) fun _ _ => trivial).bind fun _ _ => made_st _ _ _

theorem writeFp_made (insn : U32) (r : FpOut) : Made Computes (fun _ => True) (writeFp insn r) := by
  unfold writeFp
  refine (made_upd ?_).bind fun _ _ => made_upd trivial
  split_ifs <;> exact trivial

theorem execFma_made (c : Cpu) (insn : U32) : Made Computes (fun _ => True) (execFma c insn) :=
  (made_fpCheck c insn).bind fun _ _ => (made_upd trivial).bind fun _ _ =>
    (made_require insn _ fun _ _ => trivial).bind fun r _ => writeFp_made insn r

theorem execOpFp_made (host : Option HostFp) (c : Cpu) (insn : U32) : Made Computes (fun _ => True) (execOpFp host c insn) :=
  (made_fpCheck c insn).bind fun _ _ => (made_upd trivial).bind fun _ _ =>
    made_get trivial fun _ => (made_require insn _ fun _ _ => trivial).bind fun r _ => writeFp_made insn r

/-! ## The arms -/

/-- Execution goes on at a pc, without a stop. -/
def GoesOn : Next → Prop
  | .to _ stop => stop = none
  | .trapped => False

/-- The plain arms but for the AMOs compute, load and store. -/
theorem execArm_computes (host : Option HostFp) (c : Cpu) {insn : U32} (seq : U64) (h : opcode insn ≠ 0x0f) (h' : opcode insn ≠ 0x73)
    (h'' : opcode insn ≠ 0x2f) : Made Computes GoesOn (execArm host c insn seq) := by
  have hto : ∀ {p : Hart Unit}, Made Computes (fun _ => True) p →
      ∀ pc, Made Computes GoesOn (p.bind fun _ => .pure (.to pc none)) := fun hp _ => hp.bind fun _ _ => .pure rfl
  have hreq : ∀ (a : Option U64), Made Computes GoesOn ((require insn a).bind fun v =>
      (upd (.wr (rd insn) v)).bind fun _ => .pure (.to seq none)) := fun a =>
    (made_require insn a fun _ _ => trivial).bind fun _ _ => hto (made_wr _ _) _
  unfold execArm
  split
  · exact hto (made_wr _ _) _
  · exact hto (made_wr _ _) _
  · exact hto (made_wr _ _) _
  · exact hto (made_wr _ _) _
  · exact (made_require insn (branchTaken _ _ _) fun _ _ => trivial).bind fun _ _ => .pure rfl
  · exact hto (execLoad_made c insn) _
  · exact hto (execStore_made c insn) _
  · exact hto (made_wr _ _) _
  · exact hreq _
  · exact hreq _
  · exact hreq _
  · next h1 => exact absurd h1 h''
  · exact hto (execLoadFp_made c insn) _
  · exact hto (execStoreFp_made c insn) _
  · exact hto (execFma_made c insn) _
  · exact hto (execFma_made c insn) _
  · exact hto (execFma_made c insn) _
  · exact hto (execFma_made c insn) _
  · exact hto (execOpFp_made host c insn) _
  · next h1 => exact absurd h1 h
  · next h1 => exact absurd h1 h'
  · exact .throw _

/-- **The plain arms** load, store and move registers, and go on. -/
theorem execArm_made (host : Option HostFp) (c : Cpu) {insn : U32} (seq : U64) (h : opcode insn ≠ 0x0f) (h' : opcode insn ≠ 0x73) :
    Made Moves GoesOn (execArm host c insn seq) := by
  by_cases ha : opcode insn = 0x2f
  · unfold execArm
    rw [ha]
    exact (execAmo_made c insn).bind fun _ _ => .pure rfl
  · exact (execArm_computes host c seq h h' ha).mono computes_moves fun _ hn => hn

/-- **The plain arms** move registers and memory, and go on. -/
theorem execArm_plain (host : Option HostFp) (c : Cpu) {insn : U32} (seq : U64) (h : opcode insn ≠ 0x0f) (h' : opcode insn ≠ 0x73) :
    Shape Plain GoesOn (execArm host c insn seq) := (execArm_made host c seq h h').shape moves_plain accesses_plain

/-- Operations on registers and CSRs. -/
def Inner : HartOp → Prop
  | .get | .cpu _ | .csrWrite _ _ _ => True
  | _ => False

theorem moves_inner (o : HartOp) (h : Moves o) : Inner o := by
  unfold Moves at h
  split at h <;> first | exact trivial | exact h.elim

/-- Operations on registers and CSRs, the reservation apart. -/
def Governs : HartOp → Prop
  | .get | .csrWrite _ _ _ => True
  | .cpu (.reserve _) => False
  | .cpu _ => True
  | _ => False

theorem computes_governs (o : HartOp) (h : Computes o) : Governs o := by
  unfold Computes at h
  split at h <;> first | exact trivial | exact h.elim

theorem governs_inner (o : HartOp) (h : Governs o) : Inner o := by
  unfold Governs at h
  split at h <;> first | exact trivial | exact h.elim

theorem execCsr_made (c : Cpu) (insn : U32) : Made Governs (fun _ => True) (execCsr c insn) := by
  have hfp : Made Governs (fun _ => True) (csrFp c insn (insn >>> 20).toNat) := by
    unfold csrFp
    split_ifs
    · exact (made_fpCheck c insn).bind fun _ _ => made_upd trivial
    · exact .pure trivial
  have hput : ∀ v, Made Governs (fun _ => True) (csrPut insn (insn >>> 20).toNat v) := fun v => by
    cases v with
    | none => exact .pure trivial
    | some v => exact .op trivial fun _ => .pure trivial
  exact hfp.bind fun _ _ => made_get trivial fun _ => (made_require insn _ fun _ _ => trivial).bind fun _ _ =>
    (hput _).bind fun _ _ => made_upd trivial

theorem execSystem_made (c : Cpu) (insn : U32) (seq : U64) : Made Governs (fun _ => True) (execSystem c insn seq) := by
  unfold execSystem
  split_ifs
  · unfold execEcall
    cases c.sys with
    | none => exact .pure trivial
    | some s =>
      dsimp only
      split_ifs
      · exact .pure trivial
      · exact (made_upd trivial).bind fun _ _ => (made_upd trivial).bind fun _ _ => .pure trivial
  · exact .throw _
  · exact .pure trivial
  · refine (made_upd trivial).bind fun _ _ => (made_require insn c.sys fun _ _ => trivial).bind fun s _ => ?_
    split_ifs
    · exact .throw _
    · exact (made_upd trivial).bind fun _ _ => .pure trivial
  · refine (made_upd trivial).bind fun _ _ => (made_require insn c.sys fun _ _ => trivial).bind fun s _ => ?_
    split_ifs
    · exact .throw _
    · exact (made_upd trivial).bind fun _ _ => .pure trivial
  · unfold execWfi
    cases c.sys with
    | none => exact .pure trivial
    | some s =>
      dsimp only
      split_ifs
      · exact .throw _
      · exact .pure trivial
      · exact .pure trivial
  · refine Made.bind (Q := fun _ => True) ?_ fun _ _ => .pure trivial
    unfold execSfence
    split_ifs
    · exact .throw _
    · exact (made_upd trivial).bind fun _ _ => made_upd trivial
    · exact (made_upd trivial).bind fun _ _ => made_upd trivial
  · exact (execCsr_made c insn).bind fun _ _ => .pure trivial
  · exact .throw _

/-- Only the AMOs touch the reservation. -/
theorem execArm_governs (host : Option HostFp) (c : Cpu) {insn : U32} (seq : U64) (h : opcode insn ≠ 0x2f) :
    Made Governs (fun _ => True) (execArm host c insn seq) := by
  by_cases hf : opcode insn = 0x0f
  · unfold execArm
    rw [hf]
    refine Made.bind (Q := fun _ => True) ?_ fun _ _ => .pure trivial
    unfold fence
    split_ifs
    · exact made_upd trivial
    · exact .pure trivial
  by_cases hs : opcode insn = 0x73
  · unfold execArm
    rw [hs]
    exact execSystem_made c insn seq
  · exact (execArm_computes host c seq hf hs h).mono computes_governs fun _ _ => trivial

/-- **A decoded instruction** reaches data by loads and stores only. -/
theorem executeDecoded_made (host : Option HostFp) (d : DecodedInsn) : Made Inner (fun _ => True) (executeDecoded host d) := by
  have harm : ∀ c seq, Made Inner (fun _ => True) (execArm host c d.bits seq) := fun c seq => by
    by_cases ha : opcode d.bits = 0x2f
    · refine (execArm_made host c seq ?_ ?_).mono moves_inner fun _ _ => trivial
      · rw [ha]
        decide
      · rw [ha]
        decide
    · exact (execArm_governs host c seq ha).mono governs_inner fun _ _ => trivial
  unfold executeDecoded
  split_ifs
  · exact .throw _
  · refine made_get trivial fun c => (harm c _).bind fun r _ => ?_
    rcases r with ⟨pc, stop⟩ | _
    · exact (made_upd trivial).bind fun _ _ => .pure trivial
    · exact .pure trivial

/-! ## Fetching, polling and trapping -/

/-- Everything but accesses to data. -/
def Apart : HartOp → Prop
  | .read _ _ | .write _ _ _ | .translateFill _ _ => False
  | _ => True

theorem inner_apart (o : HartOp) (h : Inner o) : Apart o := by
  unfold Inner at h
  split at h <;> first | exact trivial | exact h.elim

/-- The instruction word at the pc. -/
def fetchInsn (c : Cpu) : Hart U32 := do
  let pa ← translate c.pc .fetch
  let word ← fetchWord c.pc pa
  let lo ← fetchLow pa word
  fetchRest c.pc pa word lo

theorem step_eq (host : Option HostFp) : step host = get.bind fun c =>
    if c.pc &&& 1 ≠ 0 then .throw (.instructionAddressMisaligned c.pc)
    else (fetchInsn c).bind fun full => executeDecoded host (.fromWord full) := by
  unfold step
  simp only [Program.bind_eq]
  refine congrArg get.bind (funext fun c => ?_)
  split_ifs
  · rfl
  · unfold fetchInsn
    simp only [Program.bind_eq, bind_assoc]

/-- Operations that fetch. -/
def Fetches : HartOp → Prop
  | .translate _ access => access = .fetch
  | .fetch16 _ | .fetch32IfSafe _ => True
  | _ => False

theorem fetchInsn_shape (c : Cpu) : Shape Fetches (fun _ => True) (fetchInsn c) := by
  have hword : ∀ pa, Shape Fetches (fun _ => True) (fetchWord c.pc pa) := by
    intro pa
    unfold fetchWord
    split_ifs
    · exact .op trivial fun _ => .pure trivial
    · exact .pure trivial
  have hlow : ∀ pa word, Shape Fetches (fun _ => True) (fetchLow pa word) := by
    intro pa word
    cases word with
    | some insn => exact .pure trivial
    | none => exact .op trivial fun _ => .pure trivial
  have hnext : ∀ pa, Shape Fetches (fun _ => True) (fetchNext c.pc pa) := by
    intro pa
    unfold fetchNext
    split_ifs
    · exact .op rfl fun _ => .pure trivial
    · exact .pure trivial
  have hrest : ∀ pa word lo, Shape Fetches (fun _ => True) (fetchRest c.pc pa word lo) := by
    intro pa word lo
    unfold fetchRest
    split_ifs
    · cases word with
      | some insn => exact .pure trivial
      | none => exact (hnext pa).bind fun _ _ => .op trivial fun _ => .pure trivial
    · exact .pure trivial
  exact .op rfl fun pa => (hword pa).bind fun word _ => (hlow pa word).bind fun lo _ => hrest pa word lo

theorem fetches_apart (o : HartOp) (h : Fetches o) : Apart o := by
  cases o <;> first | exact trivial | exact h.elim

theorem made_of_shape {p : Hart α} (hp : Shape P Q p) : Made P Q p := by
  induction hp with
  | pure h => exact .pure h
  | throw e => exact .throw e
  | op ho _ ih => exact .op ho ih

/-- **Fetching and executing** reaches data by loads and stores only. -/
theorem step_made (host : Option HostFp) : Made Apart (fun _ => True) (step host) := by
  rw [step_eq]
  refine made_get trivial fun c => ?_
  split_ifs
  · exact .throw _
  · exact (made_of_shape ((fetchInsn_shape c).mono fetches_apart fun _ h => h)).bind fun _ _ =>
      (executeDecoded_made host _).mono inner_apart fun _ _ => trivial

theorem exceptionToTrap_made (e : Exception) : Made Apart (fun _ => True) (exceptionToTrap e) :=
  made_get trivial fun _ => made_upd trivial

/-- Operations that an interrupt poll is made of. -/
def Polls : HartOp → Prop
  | .get | .irqLines => True
  | .cpu (.pollCd _) | .cpu (.latch _) | .cpu (.trap _ _ _) => True
  | _ => False

theorem polls_apart (o : HartOp) (h : Polls o) : Apart o := by
  cases o <;> first | exact trivial | exact h.elim

theorem checkInterrupts_made : Made Polls (fun _ => True) checkInterrupts := by
  refine made_get trivial fun c => ?_
  split_ifs
  · exact .pure trivial
  · refine .op trivial fun lines => (made_upd trivial).bind fun _ _ => made_get trivial fun c => ?_
    cases c.sys with
    | none => exact .pure trivial
    | some s =>
      dsimp only
      unfold takeInterrupt
      cases irqPriority.find? (deliverable s) with
      | none => exact .pure trivial
      | some irq => exact (made_upd trivial).bind fun _ _ => .pure trivial

theorem pollTaken_polls : Made Polls (fun _ => True) pollTaken := by
  refine made_get trivial fun c => ?_
  split_ifs
  · exact .pure trivial
  · exact (made_upd trivial).bind fun _ _ => checkInterrupts_made
  · exact (made_upd trivial).bind fun _ _ => .pure trivial

theorem pollTaken_made : Made Apart (fun _ => True) pollTaken := pollTaken_polls.mono polls_apart fun _ h => h

theorem poll_polls : Made Polls (fun _ => True) poll := by
  refine made_get trivial fun c => ?_
  split_ifs
  · exact .pure trivial
  · exact (made_upd trivial).bind fun _ _ => checkInterrupts_made.bind fun _ _ => .pure trivial
  · exact made_upd trivial

end Hart
end Lish
