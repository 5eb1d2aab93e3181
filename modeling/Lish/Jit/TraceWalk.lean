import Lish.Jit.TraceSteps
/-!
# TraceWalk — the walk over a whole trace

The first walk is at every point where the second one is, and what it has marked by its end is what the code needs on the way.
-/
namespace Lish

open Wasm Code

/-- The first walk where the second one is, with these marks. -/
def Trace.scan (t : Trace) (read write : U32) : Scan := ⟨read, write, t.pc, t.n, t.facts, t.segEntry⟩

namespace Scan

variable {s : Scan}

theorem hasRead_one (a d : Fin 32) : ∀ r ∈ [a], ((s.reads a).writes d).HasRead r := by
  intro r hr
  obtain rfl := List.mem_singleton.1 hr
  exact (hasRead_reads r).le (le_writes d)

theorem hasRead_two (a b d : Fin 32) : ∀ r ∈ [a, b], (((s.reads a).reads b).writes d).HasRead r := by
  intro r hr
  obtain rfl | hr := List.mem_cons.1 hr
  · exact (hasRead_reads r).le ((le_reads b).writes d)
  · exact hasRead_one b d r hr

end Scan

section

variable {w : CodeWindow} {lay : TraceLayout} {hot : U64 → Bool} {next : U64 → Option U64} {cfg : TranslationConfig} {wm : U32}
  {s : Scan} {t : Trace} {insn : U32} {ilen : U64}

open Scan

/-! ## The first walk over one instruction -/

/-- The marks of an instruction inside the trace. -/
theorem scanInsn_value (read write : U32) {code : List Code} (hc : t.ctx.valueCode insn t.pc = some code) :
    ∃ read' write', scanInsn w hot next cfg insn ilen (t.scan read write) =
        .go ((t.scan read' write').moves (t.facts.step insn t.pc) (t.pc + ilen)) ∧
      (∀ r ∈ aluReads insn, (t.scan read' write').HasRead r) ∧ (t.scan read' write').HasWrite (rd insn) := by
  have hnil : ∀ s : Scan, ∀ r ∈ [], s.HasRead r := fun s r hr => absurd hr List.not_mem_nil
  unfold Ctx.valueCode at hc
  unfold scanInsn aluReads
  dsimp only
  split at hc
  · rename_i ho
    rw [ho]
    exact ⟨read, _, rfl, hnil _, hasWrite_writes _⟩
  · rename_i ho
    rw [ho]
    exact ⟨read, _, rfl, hnil _, hasWrite_writes _⟩
  · rename_i ho
    rw [ho]
    exact ⟨_, _, rfl, hasRead_one _ _, hasWrite_writes _⟩
  · rename_i ho
    rw [ho]
    split_ifs at hc with ha
    rw [if_pos ha]
    exact ⟨_, _, rfl, hasRead_two _ _ _, hasWrite_writes _⟩
  · rename_i ho
    rw [ho]
    split_ifs at hc with ha
    rw [if_pos ha]
    exact ⟨_, _, rfl, hasRead_one _ _, hasWrite_writes _⟩
  · rename_i ho
    rw [ho]
    split_ifs at hc with ha
    rw [if_pos ha]
    exact ⟨_, _, rfl, hasRead_two _ _ _, hasWrite_writes _⟩
  · cases hc

theorem scanInsn_jal (ho : opcode insn = 0x6f) : scanInsn w hot next cfg insn ilen s =
    if followsJal w cfg (rd insn) (s.pc + immJ insn) s.pc then
      .go ((s.writes (rd insn)).moves ((s.facts.step insn s.pc).link (rd insn) (s.pc + ilen)) (s.pc + immJ insn))
    else .stop (s.writes (rd insn)) := by
  unfold scanInsn
  rw [ho]
  rfl

/-- The guard of a likely target reads the register. -/
theorem scanInsn_return (ho : opcode insn = 0x67) (h3 : funct3 insn = 0) (ilen : U64) {target : U64}
    (hret : returnTarget w cfg s.facts insn s.pc = some target) :
    ∃ read, scanInsn w hot next cfg insn ilen s = .go (({ s with read } : Scan).moves (s.facts.step insn s.pc) target) ∧
      ((∃ v, s.facts.known (rs1 insn) = .predicted v) → ({ s with read } : Scan).HasRead (rs1 insn)) := by
  unfold scanInsn
  rw [ho]
  dsimp only
  rw [if_neg (not_not.2 h3), hret]
  cases hk : s.facts.known (rs1 insn) with
  | no => exact ⟨s.read, rfl, fun ⟨v, hv⟩ => Known.noConfusion hv⟩
  | proven u => exact ⟨s.read, rfl, fun ⟨v, hv⟩ => Known.noConfusion hv⟩
  | predicted u => exact ⟨_, rfl, fun _ => hasRead_reads _⟩

theorem scanInsn_cached (ho : opcode insn = 0x67) (h3 : funct3 insn = 0) (hret : returnTarget w cfg s.facts insn s.pc = none)
    {target : U64} (hc : cachedTarget w next cfg s.segEntry s.pc = some target) : scanInsn w hot next cfg insn ilen s =
      .go ((((s.reads (rs1 insn)).writes (rd insn)).moves ((s.facts.step insn s.pc).link (rd insn) (s.pc + ilen)) target).enters
        target) := by
  have hc' : cachedTarget w next cfg ((s.reads (rs1 insn)).writes (rd insn)).segEntry
    ((s.reads (rs1 insn)).writes (rd insn)).pc = some target := hc
  unfold scanInsn
  rw [ho]
  dsimp only
  rw [if_neg (not_not.2 h3), hret]
  dsimp only
  rw [hc']
  rfl

theorem scanInsn_leaves (ho : opcode insn = 0x67) (h3 : funct3 insn = 0) (hret : returnTarget w cfg s.facts insn s.pc = none)
    (hc : cachedTarget w next cfg s.segEntry s.pc = none) :
    scanInsn w hot next cfg insn ilen s = .stop ((s.reads (rs1 insn)).writes (rd insn)) := by
  have hc' : cachedTarget w next cfg ((s.reads (rs1 insn)).writes (rd insn)).segEntry
    ((s.reads (rs1 insn)).writes (rd insn)).pc = none := hc
  unfold scanInsn
  rw [ho]
  dsimp only
  rw [if_neg (not_not.2 h3), hret]
  dsimp only
  rw [hc']
  rfl

theorem scanInsn_branch (ho : opcode insn = 0x63) (h3 : branchFunct3 (funct3 insn) = true) : scanInsn w hot next cfg insn ilen s =
    if cfg.traceLevel = 0 then .stop ((s.reads (rs1 insn)).reads (rs2 insn))
    else
      .go (((s.reads (rs1 insn)).reads (rs2 insn)).moves s.facts
        (if followsTaken w hot (s.pc + immB insn) s.pc (s.pc + ilen) then s.pc + immB insn else s.pc + ilen)) := by
  unfold scanInsn
  rw [ho]
  dsimp only
  rw [if_pos h3]
  rfl

/-! ## Both walks over one instruction -/

/-- **The second walk goes on only where the first one does**, and both are at the same point then. -/
theorem translateInsn_scan (w : CodeWindow) (lay : TraceLayout) (hot : U64 → Bool) (next : U64 → Option U64)
    (cfg : TranslationConfig)
    (wm : U32) (insn : U32) (ilen : U64) (t : Trace) (read write : U32) :
    (translateInsn w lay hot next cfg wm insn ilen t).Meets
      (fun t' => (∃ read' write', scanInsn w hot next cfg insn ilen (t.scan read write) = .go (t'.scan read' write')) ∧
        t'.tracePcs = t.tracePcs ++ [t.pc] ∧ t'.n = t.n + 1)
      fun _ => True := by
  unfold translateInsn
  dsimp only
  split
  · rename_i he
    obtain ⟨code, hc, hv⟩ := Option.map_eq_some_iff.1 he
    obtain ⟨read', write', hs, -, -⟩ := scanInsn_value (t := t) read write hc
    exact ⟨⟨read', write', hs⟩, rfl, rfl⟩
  · split
    · rename_i ho
      unfold translateJal
      dsimp only
      split_ifs with hj
      · exact ⟨⟨_, _, (scanInsn_jal ho).trans (if_pos hj)⟩, rfl, rfl⟩
      · trivial
    · rename_i ho
      split_ifs with h3
      · trivial
      · rw [not_not] at h3
        unfold translateJalr
        split
        · rename_i target hret
          obtain ⟨read', hs, -⟩ := scanInsn_return (s := t.scan read write) ho h3 ilen hret
          dsimp only
          split
          · exact ⟨⟨read', write, hs⟩, rfl, rfl⟩
          · exact ⟨⟨read', write, hs⟩, rfl, rfl⟩
        · rename_i hret
          dsimp only
          split
          · rename_i target hc
            refine ⟨⟨mark read (rs1 insn), mark write (rd insn),
              (scanInsn_cached (s := t.scan read write) ho h3 hret hc).trans ?_⟩, ?_, ?_⟩
            · simp only [Trace.scan, Trace.moves, Trace.enters, Trace.seed_n, Trace.seed_facts, Trace.seed_pc]
              rfl
            · exact Trace.seed_tracePcs (((t.takes _).emit _).assign _ _ |>.emit _) target
            · exact congrArg (· + 1) (Trace.seed_n (((t.takes _).emit _).assign _ _ |>.emit _) target)
          · trivial
    · rename_i ho
      split_ifs with h3
      · let s' := ((t.scan read write).reads (rs1 insn)).reads (rs2 insn)
        have hgo (hl : 1 ≤ cfg.traceLevel) : scanInsn w hot next cfg insn ilen (t.scan read write) = .go (s'.moves t.facts
            (if followsTaken w hot (t.pc + immB insn) t.pc (t.pc + ilen) then t.pc + immB insn else t.pc + ilen)) :=
          (scanInsn_branch ho h3).trans (if_neg (by omega))
        unfold translateBranch
        dsimp only
        split_ifs with hd hl hf
        · trivial
        · refine
          ⟨⟨s'.read, write, (hgo hl).trans ((congrArg (fun pc => Pace.go (s'.moves t.facts pc)) (if_pos hf)).trans ?_)⟩, ?_, ?_⟩
          · simp only [Trace.scan, Trace.moves, Trace.emit, Trace.seed_n, Trace.seed_facts, Trace.seed_segEntry]
            rfl
          · exact Trace.seed_tracePcs (t.takes _) _
          · exact congrArg (· + 1) (Trace.seed_n (t.takes _) _)
        · refine
          ⟨⟨s'.read, write, (hgo hl).trans ((congrArg (fun pc => Pace.go (s'.moves t.facts pc)) (if_neg hf)).trans ?_)⟩, ?_, ?_⟩
          · simp only [Trace.scan, Trace.moves, Trace.emit, Trace.seed_n, Trace.seed_facts, Trace.seed_segEntry]
            rfl
          · exact Trace.seed_tracePcs (t.takes _) _
          · exact congrArg (· + 1) (Trace.seed_n (t.takes _) _)
        · trivial
      · trivial
    · trivial

/-! ## A walk that the marks serve -/

variable {scan : Scan} {en : TraceEntry} (hen : Shown lay en.mem en.hart.x en.hart.pc en.retired en.mem)
  (hs : t.ctx.Serves lay scan) (hpcs : t.tracePcs.length = t.n)

omit hs in
theorem Ctx.Serves.target {c : Ctx} (hs : c.Serves lay scan) {d : Fin 32} (hw : scan.HasWrite d) :
    d ≠ 0 → c.regLocal d ≠ 0 ∧ scan.write.getLsbD d.val = true :=
  fun h0 => ⟨hs.writes d h0 hw, hw.resolve_left h0⟩

include hen hs hpcs

/-- **One instruction.** -/
theorem translateInsn_reached {read write : U32} (hle : (scanInsn w hot next cfg insn ilen (t.scan read write)).after.Le scan)
    (hf : w.fetch t.pc = some (insn, ilen)) (h : Live w scan.write en t) :
    (translateInsn w lay hot next cfg scan.write insn ilen t).Meets (Reached w lay cfg scan.write en)
      (Stopped w lay cfg scan.write en) := by
  have hbefore : Stopped w lay cfg scan.write en (t.takes (t.pc + ilen), none) := Stopped.before (Or.inl (h.takes _))
  unfold translateInsn
  dsimp only
  split
  · rename_i he
    obtain ⟨code, hc, hv⟩ := Option.map_eq_some_iff.1 he
    obtain ⟨read', write', hgo, hr, hw⟩ := scanInsn_value (t := t) read write hc
    rw [hgo] at hle
    have hle' : (t.scan read' write').Le scan := ((Le.refl _).moves _ _).trans hle
    have hlive := h.value hpcs hf hc (fun r hr' => hs.reads r ((hr r hr').le hle')) (hs.target (hw.le hle'))
    unfold Trace.assign at hlive
    rw [hv] at hlive
    exact Or.inl hlive
  · split
    · rename_i ho
      rw [scanInsn_jal ho] at hle
      have hle' : ((t.scan read write).writes (rd insn)).Le scan := by
        split_ifs at hle
        · exact ((Le.refl _).moves _ _).trans hle
        · exact hle
      exact Live.jal hen hs.xBase h hpcs hf ho (hs.target ((hasWrite_writes _).le hle'))
    · rename_i ho
      split_ifs with h3
      · exact hbefore
      · rw [not_not] at h3
        have hmarks (hret : returnTarget w cfg t.facts insn t.pc = none) :
            (((t.scan read write).reads (rs1 insn)).writes (rd insn)).Le scan := by
          cases hc : cachedTarget w next cfg t.segEntry t.pc with
          | none => rwa [scanInsn_leaves (s := t.scan read write) ho h3 hret hc] at hle
          | some target =>
            rw [scanInsn_cached (s := t.scan read write) ho h3 hret hc] at hle
            exact (((Le.refl _).moves _ _).enters _).trans hle
        refine Live.jalr hen hs.xBase h hpcs hf ho (fun hu => hs.reads _ ?_) fun hret => hs.target
          ((hasWrite_writes _).le (hmarks hret))
        cases hret : returnTarget w cfg t.facts insn t.pc with
        | none => exact ((hasRead_reads _).le (le_writes _)).le (hmarks hret)
        | some target =>
          obtain ⟨read', hgo, hr⟩ := scanInsn_return (s := t.scan read write) ho h3 ilen hret
          rw [hgo] at hle
          exact (hr (hu.resolve_right (by rw [hret]; exact Option.some_ne_none target))).le (((Le.refl _).moves _ _).trans hle)
    · rename_i ho
      split_ifs with h3
      · have hle' : (((t.scan read write).reads (rs1 insn)).reads (rs2 insn)).Le scan := by
          rw [scanInsn_branch ho h3] at hle
          split_ifs at hle
          · exact hle
          · exact ((Le.refl _).moves _ _).trans hle
          · exact ((Le.refl _).moves _ _).trans hle
        exact Live.branch hen hs.xBase h hpcs hf ho h3 (hs.reads _ (((hasRead_reads _).le (le_reads _)).le hle'))
          (hs.reads _ ((hasRead_reads _).le hle'))
      · exact hbefore
    · exact hbefore

omit hen hs hpcs

theorem scanLoop_go (k : ℕ) (hstop : ¬stopsAt cfg s.n s.pc = true) (hf : w.fetch s.pc = some (insn, ilen)) {s' : Scan}
    (hgo : scanInsn w hot next cfg insn ilen s = .go s') : scanLoop w hot next cfg (k + 1) s = scanLoop w hot next cfg k s' := by
  rw [scanLoop, if_neg hstop, hf]
  dsimp only
  rw [hgo]

theorem scanLoop_after {k : ℕ} (hstop : ¬stopsAt cfg s.n s.pc = true) (hf : w.fetch s.pc = some (insn, ilen)) :
    (scanInsn w hot next cfg insn ilen s).after.Le (scanLoop w hot next cfg (k + 1) s) := by
  rw [scanLoop, if_neg hstop, hf]
  dsimp only
  cases scanInsn w hot next cfg insn ilen s with
  | go s' => exact scanLoop_le w hot next cfg k s'
  | stop s' => exact .refl s'

/-- The function stays left while the walk goes on. -/
theorem Quit.goes (h : Quit w lay cfg en t t.n) :
    (translateInsn w lay hot next cfg wm insn ilen t).Meets (Reached w lay cfg wm en) (Stopped w lay cfg wm en) := by
  have hle := translateInsn_le w lay hot next cfg wm insn ilen t
  cases hi : translateInsn w lay hot next cfg wm insn ilen t with
  | go t' =>
    rw [hi] at hle
    exact Or.inr (h.le hle hle.n)
  | stop e =>
    rw [hi] at hle
    exact ⟨fun _ => Or.inr (h.le hle hle.n), fun _ => (h.le hle (hle.n.trans (Nat.le_succ _))).ended⟩

theorem translateLoop_le (w : CodeWindow) (lay : TraceLayout) (hot : U64 → Bool) (next : U64 → Option U64) (cfg : TranslationConfig)
    (wm : U32) (k : ℕ) (t : Trace) : t.Le (translateLoop w lay hot next cfg wm k t).1 := by
  induction k generalizing t with
  | zero => exact .refl t
  | succ k ih =>
    rw [translateLoop]
    split_ifs
    · exact .refl t
    · split
      · exact .refl t
      · have h := translateInsn_le w lay hot next cfg wm ‹_› ‹_› t
        split
        · rename_i hgo
          rw [hgo] at h
          exact h.trans (ih _)
        · rename_i hend
          rwa [hend] at h

include hen

/-- **The whole walk.** -/
theorem translateLoop_reached (k : ℕ) {t : Trace} {read write : U32} (hscan : scanLoop w hot next cfg k (t.scan read write) = scan)
    (hs : t.ctx.Serves lay scan) (hpcs : t.tracePcs.length = t.n) (h : Reached w lay cfg scan.write en t) :
    Stopped w lay cfg scan.write en (translateLoop w lay hot next cfg scan.write k t) := by
  induction k generalizing t read write with
  | zero => exact Stopped.before h
  | succ k ih =>
    rw [translateLoop]
    split_ifs with hstop
    · exact Stopped.before h
    · split
      · exact Stopped.before h
      · rename_i insn ilen hf
        have hafter : (scanInsn w hot next cfg insn ilen (t.scan read write)).after.Le scan :=
          hscan ▸ scanLoop_after (s := t.scan read write) hstop hf
        have hstep := h.elim (translateInsn_reached hen hs hpcs hafter hf) Quit.goes
        have hat := translateInsn_scan w lay hot next cfg scan.write insn ilen t read write
        have hle := translateInsn_le w lay hot next cfg scan.write insn ilen t
        split
        · rename_i t' hgo
          rw [hgo] at hstep hat hle
          obtain ⟨⟨read', write', hsgo⟩, hp, hn⟩ := hat
          have hscan' := (scanLoop_go (s := t.scan read write) k hstop hf hsgo).symm.trans hscan
          refine ih hscan' (hs.le hle.ctx) ?_ hstep
          rw [hp, hn, List.length_append, hpcs]
          rfl
        · rename_i e hend
          rwa [hend] at hstep

end

end Lish
