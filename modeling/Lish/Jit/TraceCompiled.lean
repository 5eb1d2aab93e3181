import Lish.Jit.TraceWalk
/-!
# TraceCompiled — a compiled trace does what the interpreter does

The function of a block is entered with zeroed locals.  Its prologue gives the registers that the trace reads their locals, and
asks for fuel.
-/
namespace Lish

open Wasm Code

/-! ## Locals -/

theorem assignLocal_ne_zero {touched : U32} {st : (Fin 32 → U32) × U32} (hn : st.2.toNat < 32) (r q : Fin 32) :
    (assignLocal touched st r).1 q ≠ 0 ↔ st.1 q ≠ 0 ∨ q = r ∧ touched.getLsbD q.val = true := by
  have hl : nI64Locals + 1 + st.2 ≠ 0 := fun h => by
    have ht := congrArg BitVec.toNat h
    rw [BitVec.toNat_add, show (nI64Locals + 1).toNat = 11 from rfl] at ht
    change _ = 0 at ht
    omega
  unfold assignLocal
  by_cases hb : touched &&& ((1 : U32) <<< r.val) ≠ 0
  · rw [if_pos hb]
    have hbit := and_bit.1 hb
    by_cases hq : q = r
    · subst hq
      dsimp only
      rw [Function.update_self]
      exact ⟨fun _ => Or.inr ⟨rfl, hbit⟩, fun _ => hl⟩
    · dsimp only
      rw [Function.update_of_ne hq]
      exact ⟨Or.inl, fun h => h.resolve_right fun h => hq h.1⟩
  · rw [if_neg hb]
    refine ⟨Or.inl, fun h => h.resolve_right fun h => hb (and_bit.2 ?_)⟩
    obtain ⟨rfl, hbit⟩ := h
    exact hbit

theorem assignLocal_le (touched : U32) (st : (Fin 32 → U32) × U32) (hn : st.2.toNat < 32) (r : Fin 32) :
    (assignLocal touched st r).2.toNat ≤ st.2.toNat + 1 := by
  unfold assignLocal
  split_ifs
  · rw [BitVec.toNat_add, show (1 : U32).toNat = 1 from rfl]
    omega
  · exact Nat.le_succ _

theorem foldl_assignLocal {touched : U32} (l : List (Fin 32)) {st : (Fin 32 → U32) × U32} (hn : st.2.toNat + l.length < 32)
    (q : Fin 32) :
    (l.foldl (assignLocal touched) st).1 q ≠ 0 ↔ st.1 q ≠ 0 ∨ q ∈ l ∧ touched.getLsbD q.val = true := by
  induction l generalizing st with
  | nil => simp
  | cons r l ih =>
    rw [List.length_cons] at hn
    have hle := assignLocal_le touched st (by omega) r
    rw [List.foldl_cons, ih (by omega), assignLocal_ne_zero (by omega), List.mem_cons]
    tauto

/-- The registers with locals are the touched ones. -/
theorem regLocals_ne_zero (touched : U32) (q : Fin 32) : (regLocals touched).1 q ≠ 0 ↔ q ≠ 0 ∧ touched.getLsbD q.val = true := by
  unfold regLocals
  rw [foldl_assignLocal _ (by decide)]
  have hmem : q ∈ (List.finRange 32).drop 1 ↔ q ≠ 0 := by
    revert q
    decide
  rw [hmem]
  simp

theorem regLocals_count (touched : U32) : (regLocals touched).2.toNat ≤ 31 := by
  have hle : ∀ (l : List (Fin 32)) (st : (Fin 32 → U32) × U32), st.2.toNat + l.length < 32 →
      (l.foldl (assignLocal touched) st).2.toNat ≤ st.2.toNat + l.length := by
    intro l
    induction l with
    | nil => exact fun st _ => le_rfl
    | cons r l ih =>
      intro st hn
      rw [List.length_cons] at hn ⊢
      have h := assignLocal_le touched st (by omega) r
      exact (ih _ (by omega)).trans (by omega)
  exact hle _ _ (by decide)

/-- The first local is the argument; the others start at zero. -/
def entryLocals (locals : U32 × U32) (arg : U32) (i : ℕ) : Option Val :=
  if i = 0 then some (.i32 arg)
  else if i ≤ locals.1.toNat then some (.i64 0)
  else if i ≤ locals.1.toNat + locals.2.toNat then some (.i32 0)
  else none

/-- The function of the block is called. -/
def TraceBlock.enter (b : TraceBlock) (arg : U32) (mem : Memory) : State := ⟨[], entryLocals b.locals arg, mem⟩

theorem entryLocals_reg {touched : U32} {arg : U32} {i : ℕ} (h1 : 1 ≤ i) (hi : i < 11 + (regLocals touched).2.toNat) :
    entryLocals (nI64Locals + (regLocals touched).2, 2) arg i = some (.i64 0) := by
  have hn := regLocals_count touched
  have hsum : (nI64Locals + (regLocals touched).2).toNat = 10 + (regLocals touched).2.toNat := by
    rw [BitVec.toNat_add, show nI64Locals.toNat = 10 from rfl]
    omega
  unfold entryLocals
  rw [if_neg (by omega), if_pos]
  rw [hsum]
  omega

/-! ## The prologue -/

section

variable {lay : TraceLayout} {c : Ctx} {x : Fin 32 → U64} {s : State}

/-- Registers are loaded into their locals. -/
theorem exec_loadRegs (l : List (Fin 32)) (hl : ∀ r ∈ l, c.regLocal r ≠ 0)
    (hloc : ∀ r ∈ l, ∃ v, s.locals (c.regLocal r).toNat = some (.i64 v))
    (hmem : ∀ r ∈ l, s.mem.load64 (c.xOffset r).toNat = some (x r)) :
    ∃ t, (∀ cs, execAll ((l.flatMap fun r => [i32Const 0, i64Load (c.xOffset r), localSet (c.regLocal r)]) ++ cs) s = execAll cs t) ∧
      t.stack = s.stack ∧ t.mem = s.mem ∧ (∀ r ∈ l, t.locals (c.regLocal r).toNat = some (.i64 (x r))) ∧
      ∀ i, (∀ r ∈ l, (c.regLocal r).toNat ≠ i) → t.locals i = s.locals i := by
  induction l generalizing s with
  | nil => exact ⟨s, fun _ => rfl, rfl, rfl, fun r hr => absurd hr List.not_mem_nil, fun _ _ => rfl⟩
  | cons r l ih =>
    obtain ⟨v, hv⟩ := hloc r List.mem_cons_self
    have hload : s.mem.load64 ((0 : U32).toNat + (c.xOffset r).toNat) = some (x r) := by
      rw [toNat_offset]
      exact hmem r List.mem_cons_self
    obtain ⟨t, he, hs, hm, hregs, hrest⟩ := ih (s := s.setLocal (c.regLocal r).toNat (.i64 (x r)))
      (fun q hq => hl q (List.mem_cons_of_mem _ hq)) (fun q hq => by
        rw [State.setLocal_locals]
        split_ifs
        · exact ⟨_, rfl⟩
        · exact hloc q (List.mem_cons_of_mem _ hq)) fun q hq => hmem q (List.mem_cons_of_mem _ hq)
    refine ⟨t, fun cs => ?_, hs, hm, fun q hq => ?_, fun i hi => ?_⟩
    · rw [List.flatMap_cons, List.append_assoc]
      change execAll (i32Const 0 :: i64Load (c.xOffset r) :: localSet (c.regLocal r) :: _) s = _
      rw [exec_i32Const, exec_i64Load _ s hload, exec_localSet _ s hv]
      exact he cs
    · by_cases hql : q ∈ l
      · exact hregs q hql
      · obtain rfl := (List.mem_cons.1 hq).resolve_right hql
        rw [hrest _ fun q' hq' he => hql (c.distinct q' q (BitVec.eq_of_toNat_eq he) (hl q' (List.mem_cons_of_mem _ hq')) ▸ hq'),
          State.setLocal_locals, if_pos rfl]
    · rw [hrest i fun q hq => hi q (List.mem_cons_of_mem _ hq), State.setLocal_locals, if_neg (hi r List.mem_cons_self).symm]

/-- The grant does not cover a long trace. -/
def TraceLayout.Refuses (lay : TraceLayout) (n : ℕ) (mem : Memory) : Prop :=
  FUEL_GUARD_MIN < n ∧ lay.fuelAddr ≠ 0 ∧ ∃ fuel, mem.load64 lay.fuelAddr.toNat = some fuel ∧ fuel < BitVec.ofNat 64 n

theorem exec_fuelGuard (hf : lay.Fits s.mem.size) (n : ℕ) :
    lay.Refuses n s.mem ∧ execAll (fuelGuard lay n) s = some (.left (.returned s.mem)) ∨
      ¬lay.Refuses n s.mem ∧ execAll (fuelGuard lay n) s = some (.next s) := by
  obtain ⟨fuel, hfuel⟩ := load64_isSome _ _ hf.fuel
  have hload : s.mem.load64 ((0 : U32).toNat + (lay.fuelAddr.setWidth 64 : U64).toNat) = some fuel := by rwa [toNat_addr]
  unfold fuelGuard
  by_cases h : FUEL_GUARD_MIN < n ∧ lay.fuelAddr ≠ 0
  · rw [if_pos h, exec_i32Const, exec_i64Load _ s hload, exec_i64Const, exec_cmp, CmpOp.eval_ltU, exec_guard]
    by_cases hlt : fuel.ult (BitVec.ofNat 64 n) = true
    · rw [if_pos hlt]
      exact Or.inl ⟨⟨h.1, h.2, fuel, hfuel, BitVec.ult_iff_lt.1 hlt⟩, rfl⟩
    · rw [if_neg hlt]
      refine Or.inr ⟨fun hr => ?_, rfl⟩
      obtain ⟨-, -, fuel', hfuel', hlt'⟩ := hr
      rw [hfuel] at hfuel'
      obtain rfl := Option.some.inj hfuel'
      exact hlt (BitVec.ult_iff_lt.2 hlt')
  · rw [if_neg h]
    exact Or.inr ⟨fun hr => h ⟨hr.1, hr.2.1⟩, rfl⟩

/-- After the loads the registers that are defined are in their locals. -/
theorem entry_view (wm arg : U32) {touched load : U32} {pc retired : U64} {mem : Memory} (hc : c.xBase = lay.xBase)
    (hreg : c.regLocal = (regLocals touched).1)
    (hload : ∀ r : Fin 32, load.getLsbD r.val = true → r ≠ 0 ∧ touched.getLsbD r.val = true)
    (hdef : ∀ r : Fin 32, r ≠ 0 → touched.getLsbD r.val = true → c.defined.getLsbD r.val = true → load.getLsbD r.val = true)
    (h0 : x 0 = 0) (hm : lay.Shows x pc retired mem) :
    ∃ t, execAll (loadRegs c load) ⟨[], entryLocals (nI64Locals + (regLocals touched).2, 2) arg, mem⟩ = some (.next t) ∧
      c.View wm x x t ∧ t.stack = [] ∧ t.mem = mem ∧ t.locals 0 = some (.i32 arg) := by
  have hne : ∀ r, c.regLocal r ≠ 0 ↔ r ≠ 0 ∧ touched.getLsbD r.val = true := fun r => by
    rw [hreg]
    exact regLocals_ne_zero touched r
  have hlocal : ∀ r, c.regLocal r ≠ 0 → entryLocals (nI64Locals + (regLocals touched).2, 2) arg (c.regLocal r).toNat = some
    (.i64 0) := by
    intro r hr
    rw [hreg] at hr ⊢
    have hrange := ((ownLocals_regLocals touched).range r).resolve_left hr
    exact entryLocals_reg (by omega) hrange.2
  have hoff : ∀ r, r ≠ 0 → mem.load64 (c.xOffset r).toNat = some (x r) := fun r hr => by
    rw [Ctx.toNat_xOffset, hc]
    exact hm.regs r hr
  obtain ⟨t, he, hs, hmem, hregs, hrest⟩ := exec_loadRegs (c := c) (x := x)
    (s := ⟨[], entryLocals (nI64Locals + (regLocals touched).2, 2) arg, mem⟩) (maskRegs load)
    (fun r hr => (hne r).2 (hload r (mem_maskRegs.1 hr))) (fun r hr => ⟨0, hlocal r ((hne r).2 (hload r (mem_maskRegs.1 hr)))⟩)
    fun r hr => hoff r (hload r (mem_maskRegs.1 hr)).1
  have hscratch : ∀ i ≤ 10, t.locals i = entryLocals (nI64Locals + (regLocals touched).2, 2) arg i := fun i hi =>
    hrest i fun r hr => by
      have := (c.above r).resolve_left ((hne r).2 (hload r (mem_maskRegs.1 hr)))
      omega
  refine ⟨t, ?_, ⟨⟨fun r => if c.regLocal r ≠ 0 ∧ r ∉ maskRegs load then 0 else x r,
    ⟨?_, fun r hr => ?_, fun r hr hl => ?_, fun i hi hi' => ?_⟩, fun r hr => ?_⟩, fun r _ => rfl⟩, hs, hmem, hscratch 0 (by decide)⟩
  · have hcode := he []
    rw [List.append_nil] at hcode
    exact hcode
  · exact (if_neg fun h => ((hne 0).1 h.1).1 rfl).trans h0
  · by_cases hl : r ∈ maskRegs load
    · rw [if_neg fun h => h.2 hl]
      exact hregs r hl
    · rw [if_pos ⟨hr, hl⟩, hrest _ fun q hq heq => hl (c.distinct q r (BitVec.eq_of_toNat_eq heq)
        ((hne q).2 (hload q (mem_maskRegs.1 hq))) ▸ hq)]
      exact hlocal r hr
  · rw [if_neg fun h => h.1 hl, hmem]
    exact hoff r hr
  · rw [hscratch i hi']
    exact ⟨0, entryLocals_reg hi (by omega)⟩
  · refine if_neg fun h => h.2 (mem_maskRegs.2 ?_)
    obtain ⟨hr0, ht⟩ := (hne r).1 h.1
    exact hdef r hr0 ht (hr.resolve_left h.1)

end

/-! ## The masks -/

theorem getLsbD_others (m : U32) (r : Fin 32) : (m &&& ~~~1).getLsbD r.val = true ↔ r ≠ 0 ∧ m.getLsbD r.val = true := by
  have h1 : ∀ r : Fin 32, (~~~(1 : U32)).getLsbD r.val = decide (r ≠ 0) := by decide
  rw [BitVec.getLsbD_and, Bool.and_eq_true, h1, decide_eq_true_eq]
  exact and_comm

theorem getLsbD_touched (read write : U32) (r : Fin 32) : ((read &&& ~~~1) ||| (write &&& ~~~1)).getLsbD r.val = true ↔
    r ≠ 0 ∧ (read.getLsbD r.val = true ∨ write.getLsbD r.val = true) := by
  rw [BitVec.getLsbD_or, Bool.or_eq_true, getLsbD_others, getLsbD_others]
  tauto

/-! ## The walk of a block -/

section

variable (w : CodeWindow) (lay : TraceLayout) (scan : Scan) (definedTrack : Bool)

theorem start_serves (startPc : U64) : (Trace.start startPc lay scan definedTrack).ctx.Serves lay scan := by
  refine ⟨rfl, ?_, fun r hr => ?_, fun r h0 hr => ?_⟩
  · exact not_not.1 fun h => ((regLocals_ne_zero scan.touched 0).1 h).1 rfl
  · by_cases h0 : r = 0
    · subst h0
      exact Or.inl (not_not.1 fun h => ((regLocals_ne_zero scan.touched 0).1 h).1 rfl)
    · refine Or.inr ?_
      change BitVec.getLsbD (if definedTrack = true then scan.read &&& ~~~1 else BitVec.allOnes 32) r.val = true
      split_ifs
      · exact (getLsbD_others scan.read r).2 ⟨h0, hr.resolve_left h0⟩
      · exact BitVec.getLsbD_allOnes.trans (decide_eq_true r.isLt)
  · exact (regLocals_ne_zero scan.touched r).2 ⟨h0, (getLsbD_touched scan.read scan.write r).2 ⟨h0, Or.inr (hr.resolve_left h0)⟩⟩

/-- The call of a function with these locals. -/
def TraceEntry.of (c : Cpu) (locals : U32 × U32) (arg : U32) (mem : Memory) (retired : U64) : TraceEntry :=
  ⟨c, mem, arg, retired, ⟨[], entryLocals locals arg, mem⟩⟩

/-- The prologue refuses the trace, or the walk is at its start. -/
theorem start_live {c : Cpu} (h0 : c.x 0 = 0) (arg : U32) {mem : Memory} {retired : U64} (hf : lay.Fits mem.size)
    (hm : lay.Shows c.x c.pc retired mem) :
    let en := TraceEntry.of c scan.locals arg mem retired
    let t := Trace.start c.pc lay scan definedTrack
    lay.Refuses scan.n mem ∧ execAll t.code en.start = some
      (.left (.returned mem)) ∨ ¬lay.Refuses scan.n mem ∧ Live w scan.write en t := by
  intro en t
  have hload : ∀ r : Fin 32, BitVec.getLsbD
    (if definedTrack = true then scan.read &&& scan.touched &&& ~~~1 else scan.touched) r.val = true →
      r ≠ 0 ∧ scan.touched.getLsbD r.val = true := fun r hr => by
    split_ifs at hr
    · obtain ⟨hr0, hb⟩ := (getLsbD_others _ r).1 hr
      rw [BitVec.getLsbD_and, Bool.and_eq_true] at hb
      exact ⟨hr0, hb.2⟩
    · exact ⟨((getLsbD_touched scan.read scan.write r).1 hr).1, hr⟩
  have hdef : ∀ r : Fin 32, r ≠ 0 → scan.touched.getLsbD r.val = true → t.ctx.defined.getLsbD r.val = true →
      BitVec.getLsbD (if definedTrack = true then scan.read &&& scan.touched &&& ~~~1 else scan.touched) r.val = true := by
    intro r hr0 ht hd
    change BitVec.getLsbD (if definedTrack = true then scan.read &&& ~~~1 else BitVec.allOnes 32) r.val = true at hd
    split_ifs at hd ⊢
    · refine (getLsbD_others _ r).2 ⟨hr0, ?_⟩
      rw [BitVec.getLsbD_and, ((getLsbD_others _ r).1 hd).2, ht]
      rfl
    · exact ht
  obtain ⟨s, he, hview, hs, hmem, ha⟩ := entry_view scan.write arg (c := t.ctx) rfl rfl hload hdef h0 hm
  rw [← hmem] at hf
  rcases exec_fuelGuard hf scan.n with ⟨hr, hg⟩ | ⟨hr, hg⟩
  · rw [hmem] at hr hg
    exact Or.inl ⟨hr, (execAll_next he _).trans hg⟩
  · rw [hmem] at hr
    refine Or.inr
      ⟨hr, c, s, ⟨[], List.prefix_rfl, rfl, rfl⟩, rfl, (execAll_next he _).trans hg, hview, hs, hmem, ha, fun r v hk => ?_⟩
    cases hk

end

/-! ## Blocks -/

section

variable {β : Type} [Bus β]

/-- The function has been left after a path of the trace: the interpreter follows the path, and the memory shows the hart after it
and is otherwise as it was; the function returns there or hands over. -/
def TraceBlock.LeftAt (b : TraceBlock) (host : Option HostFp) (w : CodeWindow) (lay : TraceLayout) (cfg : TranslationConfig)
    (arg : U32)
    (m : Machine β) (retired : U64) (mem : Memory) (e : Exit) : Prop :=
  ∃ path c mem', path ≠ [] ∧ path <+: b.tracePcs ∧ path.length ≤ b.nInsns ∧ w.follow host path m = some { m with cpu := c } ∧
    c = { m.cpu with x := c.x, pc := c.pc, insnCount := m.cpu.insnCount + BitVec.ofNat 64 path.length } ∧
      lay.Shows c.x c.pc (retired + BitVec.ofNat 64 path.length) mem' ∧ lay.Keeps mem mem' ∧ ExitsTo lay cfg arg c.pc mem' e

theorem Trace.decodeBody_finish (t : Trace) (locals : U32 × U32) (len : U64) (n : ℕ) :
    decodeBody (t.finish locals len n).wasm = some t.code := by
  change decodeBody (emitAll ⟨[]⟩ t.code).code = _
  rw [emitAll_code]
  exact decodeBody_bytes t.code

/-- The trace falls out of the walk. -/
theorem Reached.fall {w : CodeWindow} {lay : TraceLayout} {cfg : TranslationConfig} {wm : U32} {en : TraceEntry} {t : Trace}
    (hen : Shown lay en.mem en.hart.x en.hart.pc en.retired en.mem) (hx : t.ctx.xBase = lay.xBase) (hn : t.n ≠ 0)
    (h : Reached w lay cfg wm en t) : Ended w lay cfg en
      (t.emit (t.ctx.flushWrites wm ++ lay.setPcConst t.pc ++ lay.setRetired t.n ++ emitFixedExit lay cfg t.pc)) t.n := by
  rcases h with ⟨c, s, h⟩ | hquit
  · have hshows : Shown lay en.mem en.hart.x en.hart.pc en.retired s.mem := h.mem.symm ▸ hen
    obtain ⟨path, hp, hl, hpath⟩ := h.path
    obtain ⟨mem, o, ho, hshown, hends⟩ := leave_fixed cfg hx h.view h.arg hshows t.pc t.n
    obtain ⟨e, he, hexit⟩ := hends.close h.stack
    rw [← h.pc, ← hl] at hshown
    rw [← h.pc] at hexit
    refine ⟨path, e, hp, hl.le, (runBody_next h.exec _).trans (runBody_close ho he), c, mem, fun hnil => hn ?_, hpath, hshown, hexit⟩
    rw [← hl, hnil]
    rfl
  · exact (hquit.le ((Trace.Le.refl t).emit _) le_rfl).ended

theorem Ended.leftAt {w : CodeWindow} {lay : TraceLayout} {cfg : TranslationConfig} {m : Machine β} {locals : U32 × U32} {arg : U32}
    {mem : Memory} {retired : U64} {t : Trace} {n : ℕ} (h : Ended w lay cfg (.of m.cpu locals arg mem retired) t n)
    (host : Option HostFp) (len : U64) : ∃ code e, decodeBody (t.finish locals len n).wasm = some code ∧
      runBody code ((t.finish locals len n).enter arg mem) = some e ∧
        (t.finish locals len n).LeftAt host w lay cfg arg m retired mem e := by
  obtain ⟨path, e, hp, hlen, he, c, mem', hne, hfollow, hshown, hexit⟩ := h
  exact ⟨t.code, e, t.decodeBody_finish locals len n, he, path, c, mem', hne, hp, hlen, w.follow_traceAlong host hfollow,
    w.traceAlong_frame hfollow, hshown.shows, hshown.keeps, hexit⟩

/-- A block is a finished walk, and one that was in its trace at its start has left it at its end. -/
theorem translateTrace_walk {w : CodeWindow} {lay : TraceLayout} {hot : U64 → Bool} {next : U64 → Option U64}
    {cfg : TranslationConfig}
    {definedTrack : Bool} {c : Cpu} (arg : U32) {mem : Memory} {retired : U64} (hf : lay.Fits mem.size)
    (hm : lay.Shows c.x c.pc retired mem) {b : TraceBlock} (hb : translateTrace w c.pc lay hot next cfg definedTrack = some b)
    {scan : Scan}
    (hscan : scanRegs w hot next cfg c.pc = scan) :
    ∃ t len n, b = t.finish scan.locals len n ∧ (Trace.start c.pc lay scan definedTrack).Le t ∧
      (Live w scan.write (.of c scan.locals arg mem retired) (.start c.pc lay scan definedTrack) →
        Ended w lay cfg (.of c scan.locals arg mem retired) t n) := by
  have hen : Shown lay mem c.x c.pc retired mem := ⟨hm, .refl lay mem, hf⟩
  have hs := start_serves lay scan definedTrack c.pc
  have hle := translateLoop_le w lay hot next cfg scan.write MAX_TRACE (.start c.pc lay scan definedTrack)
  have hrun (h : Live w scan.write (.of c scan.locals arg mem retired) (.start c.pc lay scan definedTrack)) :
      Stopped w lay cfg scan.write (.of c scan.locals arg mem retired)
        (translateLoop w lay hot next cfg scan.write MAX_TRACE (.start c.pc lay scan definedTrack)) :=
    translateLoop_reached (t := .start c.pc lay scan definedTrack) hen MAX_TRACE hscan hs rfl (Or.inl h)
  unfold translateTrace at hb
  dsimp only at hb
  rw [hscan] at hb
  generalize translateLoop w lay hot next cfg scan.write MAX_TRACE (.start c.pc lay scan definedTrack) = r at hb hle hrun
  obtain ⟨t, _ | nextPc⟩ := r
  · dsimp only at hb
    split_ifs at hb with hn
    exact ⟨_, _, _, (Option.some.inj hb).symm, hle.emit _, fun h => Reached.fall hen (hle.ctx.xBase.trans hs.xBase) hn ((hrun h).1 rfl)⟩
  · exact ⟨t, _, _, (Option.some.inj hb).symm, hle, fun h => (hrun h).2 (Option.some_ne_none nextPc)⟩

/-- **A compiled trace does what the interpreter does**: its body is well formed, and called with a memory that shows a hart at
the start of the trace it runs to an end.  It either refuses, as a long trace that the grant does not cover, and has changed
nothing; or it leaves after a path of its trace, where the memory shows the hart that the interpreter has after executing the
path. -/
theorem translateTrace_runs (host : Option HostFp) (w : CodeWindow) (lay : TraceLayout) (hot : U64 → Bool) (next : U64 → Option U64)
    (cfg : TranslationConfig) (definedTrack : Bool) (m : Machine β) (h0 : m.cpu.x 0 = 0) (arg : U32) {mem : Memory} {retired : U64}
    (hf : lay.Fits mem.size) (hm : lay.Shows m.cpu.x m.cpu.pc retired mem) {b : TraceBlock}
    (hb : translateTrace w m.cpu.pc lay hot next cfg definedTrack = some b) :
    ∃ code e, decodeBody b.wasm = some code ∧ runBody code (b.enter arg mem) = some e ∧
      (lay.Refuses (scanRegs w hot next cfg m.cpu.pc).n mem ∧ e = .returned mem ∨
        ¬lay.Refuses (scanRegs w hot next cfg m.cpu.pc).n mem ∧ b.LeftAt host w lay cfg arg m retired mem e) := by
  obtain ⟨t, len, n, rfl, hle, hended⟩ := translateTrace_walk arg hf hm hb rfl
  rcases start_live w lay (scanRegs w hot next cfg m.cpu.pc) definedTrack h0 arg hf hm with ⟨hr, hleft⟩ | ⟨hr, hlive⟩
  · obtain ⟨cs, hcs⟩ := hle.code
    refine ⟨t.code, .returned mem, t.decodeBody_finish _ len n, runBody_close (o := .left (.returned mem)) ?_ rfl, Or.inl ⟨hr, rfl⟩⟩
    rw [hcs]
    exact execAll_left hleft cs
  · obtain ⟨code, e, hcode, he, hat⟩ := (hended hlive).leftAt host len
    exact ⟨code, e, hcode, he, Or.inr ⟨hr, hat⟩⟩

end

/-- The layout of the standalone tests. -/
def TraceLayout.bare : TraceLayout := ⟨0, 256, 264, 0, 0, 0, 0⟩

/-- `addi x1, x0, 5`, and a jump back to it. -/
def addiLoop : CodeWindow := ⟨[0x93, 0x00, 0x50, 0x00, 0x6f, 0xf0, 0xdf, 0xff], 0⟩

def hostExits : TranslationConfig := ⟨fun _ => none, 0, false, .host, 3, true, false, false⟩

def zeroMemory : Memory := ⟨512, fun _ => 0⟩

def bareHart : Machine FlatMemory := ⟨.new, .empty⟩

theorem translateTrace_runs_bare : ∃ b code e,
    translateTrace addiLoop 0 .bare (fun _ => false) (fun _ => none) hostExits true = some b ∧ decodeBody b.wasm = some code ∧
      runBody code (b.enter 0 zeroMemory) = some e ∧
        (TraceLayout.bare.Refuses (scanRegs addiLoop (fun _ => false) (fun _ => none) hostExits 0).n zeroMemory ∧ e = .returned zeroMemory ∨
          ¬TraceLayout.bare.Refuses (scanRegs addiLoop (fun _ => false) (fun _ => none) hostExits 0).n zeroMemory ∧
            b.LeftAt none addiLoop .bare hostExits 0 bareHart 0 zeroMemory e) := by
  obtain ⟨b, hb⟩ := Option.isSome_iff_exists.1
    (show (translateTrace addiLoop 0 .bare (fun _ => false) (fun _ => none) hostExits true).isSome = true by decide +kernel)
  have hf : TraceLayout.bare.Fits zeroMemory.size := by constructor <;> decide
  have hm : TraceLayout.bare.Shows bareHart.cpu.x 0 0 zeroMemory := ⟨by decide +kernel, by decide +kernel, by decide +kernel⟩
  obtain ⟨code, e, hcode, he, h⟩ := translateTrace_runs none addiLoop .bare (fun _ => false) (fun _ => none) hostExits true
    bareHart rfl 0 hf hm hb
  exact ⟨b, code, e, hb, hcode, he, h⟩

end Lish
