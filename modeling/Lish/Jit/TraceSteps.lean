import Lish.Jit.TraceMeaning
/-!
# TraceSteps — one instruction of a compiled trace

What the code of an instruction does to a walk that is still in its trace: it goes on where the interpreter goes on, or leaves
with the memory showing the hart after the instruction.
-/
namespace Lish

open Wasm Code

/-! ## The instruction -/

theorem Cpu.x_wr (c : Cpu) (d : Fin 32) (v : U64) : (c.wr d v).x = Ctx.setReg c.x d v := by
  unfold wr Ctx.setReg
  by_cases h : d = 0
  · rw [if_neg (not_not.2 h), if_pos h]
  · rw [if_pos h, if_neg h]
    funext r
    exact (Function.update_apply ..).symm

theorem Cpu.traceStep_value {c : Cpu} {insn : U32} {v : U64} (h : aluResult insn c.pc c.x = some v) (ilen : U64) :
    c.traceStep insn ilen = some ((c.wr (rd insn) v).goTo (c.pc + ilen)) := by
  unfold traceStep
  dsimp only
  split
  · simp [aluResult, *] at h
  · simp [aluResult, *] at h
  · simp [aluResult, *] at h
  · rw [h]
    rfl

theorem Cpu.traceStep_jal {insn : U32} (ho : opcode insn = 0x6f) (c : Cpu) (ilen : U64) :
    c.traceStep insn ilen = some ((c.wr (rd insn) (c.pc + ilen)).goTo (c.pc + immJ insn)) := by
  unfold traceStep
  rw [ho]
  rfl

theorem Cpu.traceStep_jalr {insn : U32} (ho : opcode insn = 0x67) (c : Cpu) (ilen : U64) :
    c.traceStep insn ilen = some ((c.wr (rd insn) (c.pc + ilen)).goTo ((c.x (rs1 insn) + immI insn) &&& ~~~1)) := by
  unfold traceStep
  rw [ho]
  rfl

theorem Cpu.traceStep_branch {insn : U32} (ho : opcode insn = 0x63) (c : Cpu) (ilen : U64) {taken : Bool}
    (ht : branchTaken (funct3 insn) (c.x (rs1 insn)) (c.x (rs2 insn)) = some taken) :
    c.traceStep insn ilen = some (c.goTo (if taken = true then c.pc + immB insn else c.pc + ilen)) := by
  unfold traceStep
  rw [ho]
  dsimp only
  rw [ht]
  rfl

theorem branchCmp_eval {f3 : ℕ} {a b : U64} {taken : Bool} (h : branchTaken f3 a b = some taken) :
    (branchCmp f3).1.eval a b = truth (taken = true) ∧ (branchCmp f3).2.eval a b = truth (taken = false) := by
  unfold branchTaken at h
  split at h
  · obtain rfl := Option.some.inj h
    exact ⟨truth_congr _ _ (by simp), truth_congr _ _ (by simp)⟩
  · obtain rfl := Option.some.inj h
    exact ⟨truth_congr _ _ (by simp), truth_congr _ _ (by simp)⟩
  · obtain rfl := Option.some.inj h
    exact ⟨truth_congr _ _ (by simp), truth_congr _ _ (by simp)⟩
  · obtain rfl := Option.some.inj h
    exact ⟨truth_congr _ _ (by simp), truth_congr _ _ (by simp)⟩
  · obtain rfl := Option.some.inj h
    exact ⟨truth_congr _ _ (by simp), truth_congr _ _ (by simp)⟩
  · obtain rfl := Option.some.inj h
    exact ⟨truth_congr _ _ (by simp), truth_congr _ _ (by simp)⟩
  · cases h

theorem branchTaken_isSome {f3 : ℕ} (h : branchFunct3 f3 = true) (a b : U64) : ∃ taken, branchTaken f3 a b = some taken := by
  unfold branchFunct3 at h
  rcases of_decide_eq_true h with rfl | rfl | rfl | rfl | rfl | rfl <;> exact ⟨_, rfl⟩

theorem returnTarget_some {w : CodeWindow} {cfg : TranslationConfig} {f : TraceFacts} {insn : U32} {pc target : U64}
    (h : returnTarget w cfg f insn pc = some target) :
    rd insn = 0 ∧ ∃ v, (f.known (rs1 insn)).value? = some v ∧ target = (v + immI insn) &&& ~~~1 := by
  unfold returnTarget at h
  split_ifs at h with hc
  obtain ⟨h, -⟩ := Option.filter_eq_some_iff.1 h
  obtain ⟨v, hv, ht⟩ := Option.map_eq_some_iff.1 h
  exact ⟨hc.1, v, hv, ht.symm⟩

section

variable {w : CodeWindow} {lay : TraceLayout} {hot : U64 → Bool} {next : U64 → Option U64}
  {cfg : TranslationConfig} {wm : U32} {en : TraceEntry} {t : Trace} {c : Cpu} {s : State} {insn : U32} {ilen : U64}

theorem Here.followed (h : Here w wm en t c s) (hpcs : t.tracePcs.length = t.n) (hf : w.fetch t.pc = some (insn, ilen)) {c' : Cpu}
    (hc : c.traceStep insn ilen = some c') : w.traceAlong (t.tracePcs ++ [t.pc]) en.hart = some c' := by
  obtain ⟨path, hp, hl, hm⟩ := h.path
  obtain rfl := hp.eq_of_length (hl.trans hpcs.symm)
  rw [← h.pc] at hf ⊢
  exact w.traceAlong_step hm hf hc

/-- The walk goes on after the instruction, with these registers. -/
theorem Live.go {t' : Trace} {c : Cpu} {x : Fin 32 → U64} (hpcs : t.tracePcs.length = t.n)
    (hfollow : w.traceAlong (t.tracePcs ++ [t.pc]) en.hart = some c) (hp : t'.tracePcs = t.tracePcs ++ [t.pc]) (hn : t'.n = t.n + 1)
    (hpc : c.pc = t'.pc) (hx : c.x = x) (hexec : execAll t'.code en.start = some (.next s))
    (hview : t'.ctx.View wm en.hart.x x s) (hstack : s.stack = []) (hmem : s.mem = en.mem) (harg : s.locals 0 = some (.i32 en.arg))
    (hfacts : ∀ r u, t'.facts.known r = .proven u → x r = u) : Live w wm en t' := by
  subst hx
  refine ⟨c, s, ⟨_, hp.symm ▸ List.prefix_rfl, ?_, hfollow⟩, hpc, hexec, hview, hstack, hmem, harg, hfacts⟩
  rw [List.length_append, hpcs, hn]
  rfl

/-- The function has been left after the instruction. -/
theorem gone_after {c : Cpu} {x : Fin 32 → U64} {pc : U64} (hpcs : t.tracePcs.length = t.n)
    (hfollow : w.traceAlong (t.tracePcs ++ [t.pc]) en.hart = some c) (hx : c.x = x) (hpc : c.pc = pc) {mem : Memory} {e : Exit}
    (hs : Shown lay en.mem x pc (en.retired + BitVec.ofNat 64 (t.n + 1)) mem) (he : ExitsTo lay cfg en.arg pc mem e) :
    Gone w lay cfg en (t.tracePcs ++ [t.pc]) e := by
  subst hx hpc
  refine ⟨c, mem, List.append_ne_nil_of_right_ne_nil _ (List.cons_ne_nil _ _), hfollow, ?_, he⟩
  rw [List.length_append, hpcs]
  exact hs

/-- It has been left in the middle of the trace. -/
theorem Quit.after {t' : Trace} {e : Exit} (h : Gone w lay cfg en (t.tracePcs ++ [t.pc]) e) (hpcs : t.tracePcs.length = t.n)
    (hp : t'.tracePcs = t.tracePcs ++ [t.pc]) (hn : t'.n = t.n + 1) (he : execAll t'.code en.start = some (.left e)) :
    Quit w lay cfg en t' t'.n := by
  refine ⟨_, e, hp.symm ▸ List.prefix_rfl, ?_, he, h⟩
  rw [List.length_append, hpcs, hn]
  rfl

/-- It has been left at the end of the trace. -/
theorem Ended.after {t' : Trace} {e : Exit} (h : Gone w lay cfg en (t.tracePcs ++ [t.pc]) e) (hpcs : t.tracePcs.length = t.n)
    (hp : t'.tracePcs = t.tracePcs ++ [t.pc]) (hn : t'.n = t.n) (he : runBody t'.code en.start = some e) :
    Ended w lay cfg en t' (t'.n + 1) := by
  refine ⟨_, e, hp.symm ▸ List.prefix_rfl, ?_, he, h⟩
  rw [List.length_append, hpcs, hn]
  rfl

/-- Behind a guard the walk goes on at the target, or the function has been left. -/
theorem reached_guard {t' : Trace} {ctx : Ctx} {code : List Code} {c : Cpu} {x : Fin 32 → U64}
    (hen : Shown lay en.mem en.hart.x en.hart.pc en.retired en.mem) (hbase : ctx.xBase = lay.xBase)
    (hpcs : t.tracePcs.length = t.n) (hfollow : w.traceAlong (t.tracePcs ++ [t.pc]) en.hart = some c) (hx : c.x = x)
    (hexec : execAll code en.start = some (.next s)) (hview : ctx.View wm en.hart.x x s) (hstack : s.stack = [])
    (hmem : s.mem = en.mem) (harg : s.locals 0 = some (.i32 en.arg)) (hscr : s.locals scr.toNat = some (.i64 c.pc))
    (hp : t'.tracePcs = t.tracePcs ++ [t.pc]) (hn : t'.n = t.n + 1) (hctx : t'.ctx = ctx)
    (hcode : t'.code = code ++ targetGuard lay cfg wm ctx t.n t'.pc) (hfacts : ∀ r u, t'.facts.known r = .proven u → x r = u) :
    Reached w lay cfg wm en t' := by
  subst hctx
  have hshows : Shown lay en.mem en.hart.x en.hart.pc en.retired s.mem := hmem.symm ▸ hen
  rcases exec_targetGuard cfg hbase hview harg hshows hstack hscr t.n t'.pc with ⟨htarget, hpass⟩ | ⟨mem, e, he, hshown, hexit⟩
  · refine Or.inl (Live.go hpcs hfollow hp hn htarget hx ?_ hview hstack hmem harg hfacts)
    rw [hcode]
    exact (execAll_next hexec _).trans hpass
  · refine Or.inr (Quit.after (gone_after hpcs hfollow hx rfl hshown hexit) hpcs hp hn ?_)
    rw [hcode]
    exact (execAll_next hexec _).trans he

theorem Live.takes (h : Live w wm en t) (nextPc : U64) : Live w wm en (t.takes nextPc) := by
  obtain ⟨c, s, ⟨path, hp, hl, hm⟩, hpc, hexec, hview, hstack, hmem, harg, hfacts⟩ := h
  exact ⟨c, s, ⟨path, hp.trans (List.prefix_append _ _), hl, hm⟩, hpc, hexec, hview, hstack, hmem, harg, hfacts⟩

/-! ## Values -/

/-- **An instruction inside the trace.** -/
theorem Live.value (h : Live w wm en t) (hpcs : t.tracePcs.length = t.n) (hf : w.fetch t.pc = some (insn, ilen)) {code : List Code}
    (hc : t.ctx.valueCode insn t.pc = some code) (hr : ∀ r ∈ aluReads insn, t.ctx.Usable r)
    (hw : rd insn ≠ 0 → t.ctx.regLocal (rd insn) ≠ 0 ∧ wm.getLsbD (rd insn).val = true) :
    Live w wm en (((t.takes (t.pc + ilen)).assign (rd insn) code).moves (t.facts.step insn t.pc) (t.pc + ilen)) := by
  obtain ⟨c, s, h⟩ := h
  obtain ⟨v, hv, -⟩ := Ctx.yields_value (y := c.x) hc
  obtain ⟨s', he, hview, hstack, hmem, harg⟩ := h.view.assign hw fun y hy => by
    obtain ⟨v', hv', hyields⟩ := Ctx.yields_value (y := y) hc
    rw [aluResult_congr fun r hr' => hy r (hr r hr'), hv] at hv'
    obtain rfl := Option.some.inj hv'
    exact hyields
  refine Live.go hpcs (h.followed hpcs hf (Cpu.traceStep_value (h.pc ▸ hv) ilen)) rfl rfl (congrArg (· + ilen) h.pc) (c.x_wr _ v)
    ((execAll_next h.exec _).trans he)
    hview (hstack.trans h.stack) (hmem.trans h.mem) (harg.trans h.arg) (facts_step h.facts fun u hu => ?_)
  unfold aluResult at hv
  obtain ⟨ho, rfl⟩ | ⟨ho, rfl⟩ := hu
  · rw [ho] at hv
    exact (Option.some.inj hv).symm
  · rw [ho] at hv
    exact (Option.some.inj hv).symm

/-! ## Jumps -/

section

variable (hen : Shown lay en.mem en.hart.x en.hart.pc en.retired en.mem) (hx : t.ctx.xBase = lay.xBase)
  (h : Live w wm en t) (hpcs : t.tracePcs.length = t.n) (hf : w.fetch t.pc = some (insn, ilen))
include hen hx h hpcs hf

/-- **A jump** is followed, or ends the trace. -/
theorem Live.jal (ho : opcode insn = 0x6f)
    (hw : rd insn ≠ 0 → t.ctx.regLocal (rd insn) ≠ 0 ∧ wm.getLsbD (rd insn).val = true) :
    (translateJal w lay cfg wm insn (t.pc + ilen) (t.takes (t.pc + ilen))).Meets (Reached w lay cfg wm en)
      (Stopped w lay cfg wm en) := by
  obtain ⟨c, s, h⟩ := h
  obtain ⟨s', he, hview, hstack, hmem, hlocal⟩ := h.view.link hw (t.pc + ilen)
  have hexec := (execAll_next h.exec _).trans he
  have hfollow := h.followed hpcs hf (c.traceStep_jal ho ilen)
  have hs := hstack.trans h.stack
  have hm := hmem.trans h.mem
  have ha := (hlocal 0 (by decide)).trans h.arg
  rw [h.pc] at hfollow
  unfold translateJal
  dsimp only
  split_ifs
  · exact Or.inl (Live.go hpcs hfollow rfl rfl rfl (c.x_wr _ _) hexec hview hs hm ha
      (facts_link h.facts (by rw [ho]; decide) (by rw [ho]; decide)))
  · have hshows : Shown lay en.mem en.hart.x en.hart.pc en.retired s'.mem := hm.symm ▸ hen
    obtain ⟨mem, o, ho, hshown, hends⟩ := leave_fixed cfg ((t.ctx.le_assign _ _).xBase.trans hx) hview ha hshows (t.pc + immJ insn)
      (t.n + 1)
    obtain ⟨e, he, hexit⟩ := hends.close hs
    refine Stopped.after (Ended.after (gone_after hpcs hfollow (c.x_wr _ _) rfl hshown hexit) hpcs ?_ ?_ ?_) _
    · exact Trace.seed_tracePcs ((t.takes _).assign _ _) _
    · exact Trace.seed_n ((t.takes _).assign _ _) _
    · simp only [Trace.emit, Trace.seed_code, Trace.seed_ctx, Trace.seed_n]
      exact (runBody_next hexec _).trans (runBody_close ho he)

/-- **An indirect jump** is followed where its target is known, under a guard where it is likely, or ends the trace. -/
theorem Live.jalr (ho : opcode insn = 0x67)
    (hu : (∃ v, t.facts.known (rs1 insn) = .predicted v) ∨ returnTarget w cfg t.facts insn t.pc = none → t.ctx.Usable (rs1 insn))
    (hw : returnTarget w cfg t.facts insn t.pc = none →
      rd insn ≠ 0 → t.ctx.regLocal (rd insn) ≠ 0 ∧ wm.getLsbD (rd insn).val = true) :
    (translateJalr w lay next cfg wm insn (t.pc + ilen) (t.takes (t.pc + ilen))).Meets (Reached w lay cfg wm en)
      (Stopped w lay cfg wm en) := by
  obtain ⟨c, s, h⟩ := h
  have hfollow := h.followed hpcs hf (c.traceStep_jalr ho ilen)
  rw [h.pc] at hfollow
  have hxs := c.x_wr (rd insn) (t.pc + ilen)
  have hfacts : ∀ r u, ((t.facts.step insn t.pc).link (rd insn) (t.pc + ilen)).known r = .proven u →
      Ctx.setReg c.x (rd insn) (t.pc + ilen) r = u :=
    facts_link h.facts (by rw [ho]; decide) (by rw [ho]; decide)
  unfold translateJalr
  split
  · rename_i target hret
    obtain ⟨h0, v, hv, rfl⟩ := returnTarget_some hret
    have hsame : ∀ v, Ctx.setReg c.x (rd insn) v = c.x := fun v => if_pos h0
    have hstep : ∀ r u, (t.facts.step insn t.pc).known r = .proven u → c.x r = u := fun r u hk => by
      rw [← hsame 0]
      exact facts_step h.facts (fun u hu => hu.elim (fun hu => absurd (ho.symm.trans hu.1) (by decide))
        fun hu => absurd (ho.symm.trans hu.1) (by decide)) r u hk
    rw [hsame] at hxs
    cases hk : (t.takes (t.pc + ilen)).facts.known (rs1 insn) with
    | no =>
      rw [hk] at hv
      cases hv
    | proven u =>
      rw [hk] at hv
      obtain rfl := Option.some.inj hv
      rw [h.facts _ _ hk] at hfollow
      exact Or.inl (Live.go hpcs hfollow rfl rfl rfl hxs h.exec h.view h.stack h.mem h.arg hstep)
    | predicted u =>
      obtain ⟨s₁, he₁, hview₁, hs₁, hm₁, ha₁, hscr₁⟩ := h.view.exec_target (hu (Or.inl ⟨u, hk⟩))
      exact reached_guard hen hx hpcs hfollow hxs ((execAll_next h.exec _).trans he₁) hview₁ (hs₁.trans h.stack)
        (hm₁.trans h.mem) (ha₁.trans h.arg) hscr₁ rfl rfl rfl (List.append_assoc _ _ _).symm hstep
  · rename_i hret
    obtain ⟨s₁, he₁, hview₁, hs₁, hm₁, ha₁, hscr₁⟩ := h.view.exec_target (hu (Or.inr hret))
    obtain ⟨s₂, he₂, hview₂, hs₂, hm₂, hlocal⟩ := hview₁.link (hw hret) (t.pc + ilen)
    have hexec := (execAll_next ((execAll_next h.exec _).trans he₁) _).trans he₂
    have hs := hs₂.trans (hs₁.trans h.stack)
    have hm := hm₂.trans (hm₁.trans h.mem)
    have ha := (hlocal 0 (by decide)).trans (ha₁.trans h.arg)
    have hscr := (hlocal _ (by decide)).trans hscr₁
    have hshows : Shown lay en.mem en.hart.x en.hart.pc en.retired s₂.mem := hm.symm ▸ hen
    have hbase := (t.ctx.le_assign (rd insn) [i64Const (t.pc + ilen)]).xBase.trans hx
    dsimp only
    split
    · rename_i target hcached
      refine reached_guard (t := t) hen hbase hpcs hfollow hxs hexec hview₂ hs hm ha hscr ?_ ?_ ?_ ?_ ?_
      · simp [Trace.moves, Trace.enters, Trace.emit, Trace.assign, Trace.takes]
      · simp [Trace.moves, Trace.enters, Trace.emit, Trace.assign, Trace.takes]
      · simp only [Trace.moves, Trace.enters, Trace.seed_ctx]
        rfl
      · simp only [Trace.moves, Trace.enters, Trace.seed_code]
        rfl
      · simp only [Trace.moves, Trace.enters, Trace.seed_facts, Trace.seed_pc]
        exact hfacts
    · obtain ⟨mem, o, hout, hshown, hends⟩ := leave_target cfg hbase hview₂ ha hshows hscr t.n
      obtain ⟨e, he, hexit⟩ := hends.close hs
      refine Stopped.after (Ended.after (t := t) (gone_after hpcs hfollow hxs rfl hshown hexit) hpcs ?_ ?_ ?_) _
      · rfl
      · rfl
      · exact (runBody_next hexec _).trans (runBody_close hout he)

omit h hf in
/-- A conditional exit: the trace goes on where the condition fails. -/
theorem Here.side (h : Here w wm en t c s) {pc' : U64}
    (hfollow : w.traceAlong (t.tracePcs ++ [t.pc]) en.hart = some (c.goTo pc'))
    (hu : t.ctx.Usable (rs1 insn)) (hu' : t.ctx.Usable (rs2 insn)) {op : CmpOp} {p : Prop} [Decidable p]
    (heval : op.eval (c.x (rs1 insn)) (c.x (rs2 insn)) = truth p) {exitPc goPc : U64} (hexit : p → pc' = exitPc)
    (hgo : ¬p → pc' = goPc) (nextPc : U64) :
    Reached w lay cfg wm en (((((t.takes nextPc).seed exitPc).emit (t.ctx.pushRegCode (rs1 insn) ++ t.ctx.pushRegCode (rs2 insn) ++
      [cmp64 op, ifThen (lay.setPcConst exitPc ++ t.ctx.flushWrites wm ++ lay.setRetired (t.n + 1) ++ emitFixedExit lay cfg exitPc ++
        [ret])]))).moves ((t.takes nextPc).seed exitPc).facts goPc) := by
  have hcode : ∀ p q : List Code, ∀ a b : Code, p ++ q ++ [a, b] = p ++ q ++ [a] ++ [b] := fun p q a b => by
    rw [List.append_assoc _ [a]]
    rfl
  by_cases hp : p
  · obtain rfl := hexit hp
    have hshows : Shown lay en.mem en.hart.x en.hart.pc en.retired s.mem := h.mem.symm ▸ hen
    obtain ⟨mem, o, hout, hshown, hends⟩ := leave_side cfg hx h.view h.arg hshows pc' (t.n + 1)
    obtain ⟨e, he, hexit⟩ := hends.ret hout
    have hs : { s with stack := [] } = s := by rw [← h.stack]
    refine Or.inr (Quit.after (t := t) (gone_after hpcs hfollow rfl rfl hshown hexit) hpcs ?_ ?_ ?_)
    · exact Trace.seed_tracePcs (t.takes nextPc) pc'
    · exact congrArg (· + 1) (Trace.seed_n (t.takes nextPc) pc')
    · simp only [Trace.moves, Trace.emit, Trace.seed_code]
      refine (execAll_next h.exec _).trans ?_
      rw [hcode, h.view.exec_compare hu hu', heval]
      refine exec_side [] s hp ?_
      rw [hs]
      exact he
  · obtain rfl := hgo hp
    refine Or.inl (Live.go (t := t) (s := s) hpcs hfollow ?_ ?_ rfl rfl ?_ ?_ h.stack h.mem h.arg ?_)
    · exact Trace.seed_tracePcs (t.takes nextPc) exitPc
    · exact congrArg (· + 1) (Trace.seed_n (t.takes nextPc) exitPc)
    · simp only [Trace.moves, Trace.emit, Trace.seed_code]
      refine (execAll_next h.exec _).trans ?_
      rw [hcode, h.view.exec_compare hu hu', heval, exec_pass [] s hp]
      rfl
    · simp only [Trace.moves, Trace.emit, Trace.seed_ctx]
      exact h.view
    · simp only [Trace.moves, Trace.seed_facts]
      exact h.facts

/-- **A branch** ends the trace, or is followed one way. -/
theorem Live.branch (ho : opcode insn = 0x63) (h3 : branchFunct3 (funct3 insn) = true) (hu : t.ctx.Usable (rs1 insn))
    (hu' : t.ctx.Usable (rs2 insn)) :
    (translateBranch w lay hot cfg wm insn (t.pc + ilen) (t.takes (t.pc + ilen))).Meets (Reached w lay cfg wm en)
      (Stopped w lay cfg wm en) := by
  obtain ⟨c, s, h⟩ := h
  obtain ⟨taken, ht⟩ := branchTaken_isSome h3 (c.x (rs1 insn)) (c.x (rs2 insn))
  obtain ⟨heval, heval'⟩ := branchCmp_eval ht
  have hfollow := h.followed hpcs hf (c.traceStep_branch ho ilen ht)
  have hshows : Shown lay en.mem en.hart.x en.hart.pc en.retired s.mem := h.mem.symm ▸ hen
  rw [h.pc] at hfollow
  unfold translateBranch
  dsimp only
  split_ifs with hd hl hfol
  · obtain ⟨mem, o, hout, hshown, hends⟩ := leave_arms cfg hx h.view h.arg hshows h.stack (taken = true) (t.pc + immB insn)
      (t.pc + ilen) (t.n + 1)
    obtain ⟨e, he, hexit⟩ := hends.close h.stack
    refine Stopped.after (Ended.after (t := t) (gone_after hpcs hfollow rfl rfl hshown hexit) hpcs ?_ ?_ ?_) _
    · simp [Trace.emit, Trace.takes]
    · simp [Trace.emit, Trace.takes]
    · simp only [Trace.emit, Trace.seed_code]
      refine (runBody_next h.exec _).trans (runBody_close ?_ he)
      rw [List.append_assoc _ (Ctx.flushWrites _ _), List.append_assoc]
      refine (h.view.exec_compare hu hu' _ _).trans ?_
      rw [heval]
      exact hout
  · refine h.side hen hx hpcs hfollow hu hu' heval' (fun hn => ?_) (fun hn => ?_) (t.pc + ilen)
    · rw [hn]
      rfl
    · rw [Bool.not_eq_false] at hn
      rw [hn]
      rfl
  · refine h.side hen hx hpcs hfollow hu hu' heval (fun hn => ?_) (fun hn => ?_) (t.pc + ilen)
    · rw [hn]
      rfl
    · rw [Bool.not_eq_true] at hn
      rw [hn]
      rfl
  · obtain ⟨mem, o, hout, hshown, hends⟩ := leave_branch cfg hx h.view h.arg hshows (taken = true) (t.pc + immB insn)
      (t.pc + ilen) (t.n + 1)
    obtain ⟨e, he, hexit⟩ := hends.close h.stack
    refine Stopped.after (Ended.after (t := t) (gone_after hpcs hfollow rfl rfl hshown hexit) hpcs ?_ ?_ ?_) _
    · rfl
    · rfl
    · refine (runBody_next h.exec _).trans (runBody_close ?_ he)
      have hcode : ∀ p q f r x : List Code, ∀ a b : Code, p ++ q ++ [a, b] ++ f ++ r ++ x = p ++ q ++ [a] ++ b ::
        (f ++ r ++ x) := by
        intro p q f r x a b
        simp only [List.append_assoc, List.cons_append, List.nil_append]
      rw [hcode]
      refine (h.view.exec_compare hu hu' _ _).trans ?_
      rw [heval]
      exact hout

end

end

end Lish
