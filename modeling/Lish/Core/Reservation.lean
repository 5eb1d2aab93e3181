import Lish.Prog.Trace
import Lish.Core.Retire
/-!
# Reservation — who sets and who clears the reservation

An LR that completes sets the reservation; an SC that completes and every trap clear it.  No other operation touches it.
-/
namespace Lish

/-- What an operation sets the reservation to, if it does. -/
def HartOp.reserves : HartOp → Option (Option U64)
  | .cpu (.reserve v) => some v
  | .cpu (.trap _ _ _) => some none
  | _ => none

def HartOp.IsTrap : HartOp → Prop
  | .cpu (.trap _ _ _) => True
  | _ => False

namespace Cpu

/-- The reservation and the mode of operation, which privileged registers leave alone. -/
def reserved (c : Cpu) : Option U64 × Bool := (c.reservation, c.sys.isSome)

theorem reserved_modifySys (c : Cpu) (g : SysCsrs → SysCsrs) : (c.modifySys g).reserved = c.reserved := by
  unfold reserved modifySys
  rw [Option.isSome_map]

theorem reserved_takeTrap (c : Cpu) (cause tval : U64) (isInterrupt : Bool) :
    (c.takeTrap cause tval isInterrupt).reserved = (none, c.sys.isSome) := by
  have hcount : ({ c with irqPollCd := 0, reservation := none }.countTrap cause isInterrupt).reserved = (none, c.sys.isSome) := by
    unfold countTrap
    cases isInterrupt <;> cases cause == 8 <;> rfl
  unfold takeTrap
  dsimp only
  generalize countTrap _ cause isInterrupt = c' at hcount ⊢
  rw [← hcount]
  unfold reserved
  cases hc : c'.sys with
  | none =>
    dsimp only
    rw [hc]
  | some s =>
    dsimp only
    cases delegated s cause isInterrupt <;> rfl

theorem reserved_apply (c : Cpu) (u : CpuOp) :
    (u.apply c).reserved = ((HartOp.cpu u).reserves.getD c.reservation, c.sys.isSome) := by
  cases u with
  | wr rd v =>
    change (c.wr rd v).reserved = _
    unfold wr
    split_ifs <;> rfl
  | fpDirty => exact reserved_modifySys c _
  | latch lines => exact reserved_modifySys c _
  | trap cause tval isInterrupt => exact reserved_takeTrap c cause tval isInterrupt
  | mret => exact reserved_modifySys c _
  | sret => exact reserved_modifySys c _
  | _ => rfl

theorem reserved_putSys (c : Cpu) (g : SysCsrs → SysCsrs) : (c.putSys g).1.reserved = c.reserved := by
  unfold putSys reserved
  cases hs : c.sys with
  | none =>
    dsimp only
    rw [hs]
  | some s => rfl

theorem reserved_putStatus (c : Cpu) (writable v : U64) : (c.putStatus writable v).1.reserved = c.reserved := by
  have h := reserved_putSys c fun s => { s with mstatus := (s.mstatus &&& ~~~writable) ||| (v &&& writable) }
  unfold putStatus
  dsimp only
  split_ifs <;> exact h

theorem reserved_putSatp (c : Cpu) (v : U64) : (c.putSatp v).1.reserved = c.reserved := by
  unfold putSatp reserved
  cases hs : c.sys with
  | none =>
    dsimp only
    rw [hs]
  | some s =>
    dsimp only
    split_ifs
    · dsimp only
      rw [hs]
    · unfold writeSatp
      dsimp only
      split_ifs <;> first | rfl | exact congrArg (Prod.mk c.reservation) (by rw [hs])

theorem reserved_csrWrite (c : Cpu) (csr : ℕ) (v : U64) : (c.csrWrite csr v).1.reserved = c.reserved := by
  have hput : ∀ c : Cpu, (c.csrPut csr v).1.reserved = c.reserved := fun c => by
    unfold csrPut
    split
    all_goals first
      | rfl
      | exact reserved_modifySys c _
      | exact reserved_putStatus c _ v
      | exact reserved_putSatp c v
      | exact reserved_putSys c _
      | skip
    split_ifs
    · exact reserved_putSys c _
    · exact reserved_putSys c _
    · rfl
  unfold csrWrite
  dsimp only
  split_ifs
  · rfl
  · rfl
  · exact hput _

end Cpu

namespace Machine

variable {β : Type} [Bus β] {m m' : Machine β}

theorem TlbOnly.reserved {c c' : Cpu} (h : TlbOnly c c') : c'.reserved = c.reserved := by
  unfold TlbOnly at h
  have hr := congrArg Cpu.reserved h
  exact hr

theorem exec_reserved (o : HartOp) (m : Machine β) :
    (exec o m).2.cpu.reserved = (o.reserves.getD m.cpu.reservation, m.cpu.sys.isSome) := by
  have hf := (exec_frame busRel_true o m).2
  cases o with
  | cpu u =>
    rw [show (exec (.cpu u) m).2.cpu = u.apply m.cpu from hf]
    exact Cpu.reserved_apply m.cpu u
  | csrWrite insn csr v =>
    rw [show (exec (.csrWrite insn csr v) m).2.cpu = (m.cpu.csrWrite csr v).1 from hf]
    exact Cpu.reserved_csrWrite m.cpu csr v
  | _ => exact TlbOnly.reserved hf

end Machine

namespace Hart

open Program Machine

variable {β : Type} [Bus β] {m m' : Machine β} {α : Type}

/-- **The reservation after a run** is what its operations left. -/
theorem run_reservation (p : Hart α) (m : Machine β) :
    (p.run exec m).2.cpu.reservation = lastSet HartOp.reserves (p.trace exec m) m.cpu.reservation :=
  run_lastSet (h := exec) (g := fun m : Machine β => m.cpu.reservation) (fun o m => congrArg Prod.fst (exec_reserved o m)) p m

theorem run_system (p : Hart α) (m : Machine β) : (p.run exec m).2.cpu.sys.isSome = m.cpu.sys.isSome :=
  run_invariant (h := exec) (P := fun _ _ => True) (J := fun m' : Machine β => m'.cpu.sys.isSome = m.cpu.sys.isSome)
    (fun m' o hm _ => (congrArg Prod.snd (exec_reserved o m')).trans hm) p rfl (guarded_true _ _ _)

/-! ## The instructions -/

/-- An AMO of a function: LR is 2, SC is 3. -/
def IsAmo (funct5 : ℕ) (d : DecodedInsn) : Prop :=
  d.valid = true ∧ opcode d.bits = 0x2f ∧ (amoWidth (funct3 d.bits)).isSome = true ∧ funct7 d.bits / 4 = funct5

instance (funct5 : ℕ) (d : DecodedInsn) : Decidable (IsAmo funct5 d) :=
  inferInstanceAs (Decidable (_ ∧ _ ∧ _ ∧ _))

abbrev IsLr (d : DecodedInsn) : Prop := IsAmo 0x02 d

abbrev IsSc (d : DecodedInsn) : Prop := IsAmo 0x03 d

/-- The address of an AMO. -/
def amoAddr (c : Cpu) (d : DecodedInsn) : U64 := c.x (rs1 d.bits)

/-- Operations that leave the reservation alone. -/
def Steady (o : HartOp) : Prop := o.reserves = none

theorem accesses_steady (o : HartOp) (h : Accesses o) : Steady o := by
  cases o <;> first | rfl | exact h.elim

/-- The reservation is not set, but a trap may clear it. -/
def Unreserving (o : HartOp) : Prop := ∀ v, o ≠ .cpu (.reserve v)

theorem steady_unreserving (o : HartOp) (h : Steady o) : Unreserving o := by
  rintro v rfl
  cases h

theorem governs_unreserving (o : HartOp) (h : Governs o) : Unreserving o := by
  rintro v rfl
  exact h.elim

theorem polls_unreserving (o : HartOp) (h : Polls o) : Unreserving o := by
  rintro v rfl
  exact h.elim

theorem fetches_steady (o : HartOp) (h : Fetches o) : Steady o := by
  cases o <;> first | rfl | exact h.elim

theorem accesses_unreserving (o : HartOp) (h : Accesses o) : Unreserving o := steady_unreserving o (accesses_steady o h)

theorem exceptionToTrap_unreserving (e : Exception) : Shape Unreserving (fun _ => True) (exceptionToTrap e) :=
  .op (fun _ h => nomatch h) fun _ => .op (fun _ h => nomatch h) fun _ => .pure trivial

/-- An operation after the arm of an instruction, or of the arm. -/
theorem mem_executeDecoded {host : Option HostFp} {d : DecodedInsn} {o : HartOp} (ho : o ∈ (executeDecoded host d).trace exec m) :
    d.valid = true ∧ (o = .get ∨ o ∈ (execArm host m.cpu d.bits (m.cpu.pc + d.byteLen)).trace exec m ∨
      ∃ pc, o = .cpu (.retire pc)) := by
  unfold executeDecoded at ho
  cases hv : d.valid with
  | false =>
    rw [hv, Bool.not_false, if_pos rfl] at ho
    cases ho
  | true =>
    rw [hv, Bool.not_true, if_neg Bool.false_ne_true] at ho
    refine ⟨rfl, ?_⟩
    change o ∈ HartOp.get :: (Program.bind (execArm host m.cpu d.bits (m.cpu.pc + d.byteLen)) _).trace exec m at ho
    rcases List.mem_cons.1 ho with rfl | ho
    · exact .inl rfl
    · rw [trace_bind] at ho
      rcases List.mem_append.1 ho with ho | ho
      · exact .inr (.inl ho)
      · revert ho
        rcases (execArm host m.cpu d.bits (m.cpu.pc + d.byteLen)).run exec m with ⟨e | r, m'⟩
        · exact fun ho => (nomatch ho)
        · rcases r with ⟨pc, stop⟩ | _
          · intro ho
            change o ∈ [HartOp.cpu (.retire pc)] at ho
            exact .inr (.inr ⟨pc, List.mem_singleton.1 ho⟩)
          · exact fun ho => (nomatch ho)

/-- The arm of an AMO. -/
theorem execArm_amo {host : Option HostFp} {c : Cpu} {insn : U32} (h : opcode insn = 0x2f) (seq : U64) :
    execArm host c insn seq = (execAmo c insn).bind fun _ => .pure (.to seq none) := by
  unfold execArm
  rw [h]
  rfl

/-- Only an AMO reserves. -/
theorem reserve_of_amo {host : Option HostFp} {d : DecodedInsn} {v : Option U64}
    (ho : .cpu (.reserve v) ∈ (executeDecoded host d).trace exec m) :
    d.valid = true ∧ opcode d.bits = 0x2f ∧ .cpu (.reserve v) ∈ (execAmo m.cpu d.bits).trace exec m := by
  obtain ⟨hv, h | h | ⟨pc, h⟩⟩ := mem_executeDecoded ho
  · cases h
  · by_cases ha : opcode d.bits = 0x2f
    · rw [execArm_amo ha, trace_bind] at h
      rcases List.mem_append.1 h with h | h
      · exact ⟨hv, ha, h⟩
      · revert h
        rcases (execAmo m.cpu d.bits).run exec m with ⟨e | r, m'⟩ <;> exact fun h => (nomatch h)
    · have hs := ((execArm_governs host m.cpu (m.cpu.pc + d.byteLen) ha).shape governs_unreserving accesses_unreserving).trace h
      exact absurd rfl (hs v)
  · cases h

theorem execAmo_lr {c : Cpu} {d : DecodedInsn} {is64 : Bool} (hw : amoWidth (funct3 d.bits) = some is64) (hf : funct7 d.bits / 4 = 0x02) :
    execAmo c d.bits = (amoLoad is64 (amoAddr c d)).bind fun v =>
      .op (.cpu (.reserve (some (amoAddr c d)))) fun _ => .op (.cpu (.wr (rd d.bits) v)) .pure := by
  unfold execAmo
  rw [hw, hf]
  rfl

theorem execAmo_sc {c : Cpu} {d : DecodedInsn} {is64 : Bool} (hw : amoWidth (funct3 d.bits) = some is64) (hf : funct7 d.bits / 4 = 0x03) :
    execAmo c d.bits = (scStore c is64 (amoAddr c d) (c.x (rs2 d.bits))).bind fun status =>
      .op (.cpu (.wr (rd d.bits) status)) fun _ => .op (.cpu (.reserve none)) .pure := by
  unfold execAmo
  rw [hw, hf]
  rfl

/-- An AMO that is neither LR nor SC leaves the reservation alone. -/
theorem execAmo_other {c : Cpu} {insn : U32} (h2 : funct7 insn / 4 ≠ 0x02) (h3 : funct7 insn / 4 ≠ 0x03) :
    Made Computes (fun _ => True) (execAmo c insn) := by
  refine (made_require insn (amoWidth (funct3 insn)) fun _ _ => trivial).bind fun is64 _ => ?_
  split
  · next hf => exact absurd hf h2
  · next hf => exact absurd hf h3
  · exact (amoLoad_made _ _).bind fun _ _ => (made_require insn _ fun _ _ => trivial).bind fun _ _ =>
      (made_st _ _ _).bind fun _ _ => made_upd trivial

theorem computes_steady (o : HartOp) (h : Computes o) : Steady o := by
  unfold Computes at h
  split at h <;> first | rfl | exact h.elim

/-- Loads, stores and their statuses leave the reservation and the registers alone. -/
theorem amoLoad_accesses (is64 : Bool) (addr : U64) : Shape Accesses (fun _ => True) (amoLoad is64 addr) :=
  (amoLoad_made (P := fun _ => False) is64 addr).shape (fun _ h => h.elim) fun _ h => h

theorem scStore_accesses (c : Cpu) (is64 : Bool) (addr src : U64) : Shape Accesses (fun _ => True) (scStore c is64 addr src) :=
  (scStore_made (P := fun _ => False) c is64 addr src).shape (fun _ h => h.elim) fun _ h => h

/-- **Only an LR that completes sets the reservation**, to its address. -/
theorem lr_of_reserve {host : Option HostFp} {d : DecodedInsn} {a : U64}
    (ho : .cpu (.reserve (some a)) ∈ (executeDecoded host d).trace exec m) :
    IsLr d ∧ a = amoAddr m.cpu d ∧ ((execAmo m.cpu d.bits).run exec m).1 = .ok () := by
  obtain ⟨hv, hop, ho⟩ := reserve_of_amo ho
  cases hw : amoWidth (funct3 d.bits) with
  | none =>
    unfold execAmo at ho
    rw [hw] at ho
    cases ho
  | some is64 =>
    have hsome : (amoWidth (funct3 d.bits)).isSome = true := by rw [hw]; rfl
    by_cases h2 : funct7 d.bits / 4 = 0x02
    · rw [execAmo_lr hw h2, trace_bind] at ho
      rw [execAmo_lr hw h2, run_bind]
      rcases List.mem_append.1 ho with ho | ho
      · cases accesses_steady _ ((amoLoad_accesses _ _).trace ho)
      · revert ho
        rcases (amoLoad is64 (amoAddr m.cpu d)).run exec m with ⟨e | r, m'⟩
        · exact fun ho => (nomatch ho)
        · intro ho
          change _ ∈ [HartOp.cpu (.reserve (some (amoAddr m.cpu d))), .cpu (.wr (rd d.bits) r)] at ho
          rcases List.mem_cons.1 ho with ho | ho
          · cases ho
            exact ⟨⟨hv, hop, hsome, h2⟩, rfl, rfl⟩
          · cases List.mem_singleton.1 ho
    by_cases h3 : funct7 d.bits / 4 = 0x03
    · rw [execAmo_sc hw h3, trace_bind] at ho
      rcases List.mem_append.1 ho with ho | ho
      · cases accesses_steady _ ((scStore_accesses _ _ _ _).trace ho)
      · revert ho
        rcases (scStore m.cpu is64 (amoAddr m.cpu d) (m.cpu.x (rs2 d.bits))).run exec m with ⟨e | r, m'⟩
        · exact fun ho => (nomatch ho)
        · intro ho
          change _ ∈ [HartOp.cpu (.wr (rd d.bits) r), .cpu (.reserve none)] at ho
          rcases List.mem_cons.1 ho with ho | ho
          · cases ho
          · cases List.mem_singleton.1 ho
    · cases ((execAmo_other h2 h3).shape computes_steady accesses_steady).trace ho

/-- The status of an SC is zero only where its reservation holds. -/
theorem reserved_of_sc {d : DecodedInsn} (h : IsSc d) (hz : .cpu (.wr (rd d.bits) 0) ∈ (execAmo m.cpu d.bits).trace exec m) :
    m.cpu.reservation = some (amoAddr m.cpu d) := by
  obtain ⟨-, -, hw, h3⟩ := h
  obtain ⟨is64, hw⟩ := Option.isSome_iff_exists.1 hw
  rw [execAmo_sc hw h3, trace_bind] at hz
  rcases List.mem_append.1 hz with hz | hz
  · exact ((scStore_accesses _ _ _ _).trace hz).elim
  · by_contra hr
    have hfail : scStore m.cpu is64 (amoAddr m.cpu d) (m.cpu.x (rs2 d.bits)) = .pure 1 := if_neg hr
    rw [hfail] at hz
    change _ ∈ [HartOp.cpu (.wr (rd d.bits) 1), .cpu (.reserve none)] at hz
    rcases List.mem_cons.1 hz with hz | hz
    · cases hz
    · cases List.mem_singleton.1 hz

/-- An SC that completes clears the reservation. -/
theorem sc_clears {host : Option HostFp} {d : DecodedInsn} (h : IsSc d) {stop : Option StopReason} {m' : Machine β}
    (hok : (executeDecoded host d).run exec m = (.ok stop, m')) :
    .cpu (.reserve none) ∈ (executeDecoded host d).trace exec m := by
  obtain ⟨hv, hop, hw, h3⟩ := h
  obtain ⟨is64, hw⟩ := Option.isSome_iff_exists.1 hw
  unfold executeDecoded at hok ⊢
  rw [hv, Bool.not_true, if_neg Bool.false_ne_true] at hok ⊢
  change (Program.bind (execArm host m.cpu d.bits (m.cpu.pc + d.byteLen)) _).run exec m = _ at hok
  change _ ∈ HartOp.get :: (Program.bind (execArm host m.cpu d.bits (m.cpu.pc + d.byteLen)) _).trace exec m
  rw [execArm_amo hop, bind_assoc, execAmo_sc hw h3, bind_assoc, run_bind] at hok
  rw [execArm_amo hop, bind_assoc, execAmo_sc hw h3, bind_assoc, trace_bind]
  revert hok
  rcases (scStore m.cpu is64 (amoAddr m.cpu d) (m.cpu.x (rs2 d.bits))).run exec m with ⟨e | r, m₁⟩
  · exact fun hok => (nomatch hok)
  · intro _
    refine List.mem_cons_of_mem _ (List.mem_append_right _ ?_)
    change _ ∈ HartOp.cpu (.wr (rd d.bits) r) :: .cpu (.reserve none) :: _
    exact List.mem_cons_of_mem _ List.mem_cons_self

end Hart
end Lish
