import Lish.Jit.TraceExits
import Lish.Jit.TraceRuns
/-!
# TraceMeaning — a compiled trace does what the interpreter does

At every point of the second walk the code so far has followed the interpreter along the path so far, or has left the function with
the memory showing the hart where it left.
-/
namespace Lish

open Wasm Code

/-! ## Growing traces -/

/-- A context later in the trace: more registers are defined. -/
structure Ctx.Le (c c' : Ctx) : Prop where
  xBase : c'.xBase = c.xBase
  regLocal : c'.regLocal = c.regLocal
  defined : HasRegs c'.defined c.defined

theorem Ctx.Le.refl (c : Ctx) : c.Le c := ⟨rfl, rfl, fun _ h => h⟩

theorem Ctx.le_assign (c : Ctx) (d : Fin 32) (value : List Code) : c.Le (c.assign d value).1 := by
  unfold Ctx.assign
  by_cases h0 : d = 0
  · rw [if_pos h0]
    exact .refl c
  · rw [if_neg h0]
    refine ⟨rfl, rfl, fun r hr => ?_⟩
    rw [getLsbD_set, hr]
    rfl

/-- The context serves a trace of this scan: what is read is there, and what is written has a local. -/
structure Ctx.Serves (c : Ctx) (lay : TraceLayout) (scan : Scan) : Prop where
  xBase : c.xBase = lay.xBase
  zero : c.regLocal 0 = 0
  reads : ∀ r, scan.HasRead r → c.Usable r
  writes : ∀ r, r ≠ 0 → scan.HasWrite r → c.regLocal r ≠ 0

theorem Ctx.Serves.le {c c' : Ctx} {lay : TraceLayout} {scan : Scan} (h : c.Serves lay scan) (hl : c.Le c') :
    c'.Serves lay scan := by
  refine ⟨hl.xBase.trans h.xBase, ?_, fun r hr => ?_, fun r h0 hr => ?_⟩
  · rw [hl.regLocal]
    exact h.zero
  · unfold Ctx.Usable
    rw [hl.regLocal]
    exact (h.reads r hr).imp_right (hl.defined r)
  · rw [hl.regLocal]
    exact h.writes r h0 hr

namespace Trace

/-- A later point of the trace. -/
structure Le (t t' : Trace) : Prop where
  ctx : t.ctx.Le t'.ctx
  code : ∃ cs, t'.code = t.code ++ cs
  pcs : t.tracePcs <+: t'.tracePcs
  n : t.n ≤ t'.n

variable {t t' t'' : Trace}

theorem Le.refl (t : Trace) : t.Le t := ⟨.refl _, ⟨[], (List.append_nil _).symm⟩, List.prefix_rfl, le_rfl⟩

theorem Le.trans (h : t.Le t') (h' : t'.Le t'') : t.Le t'' := by
  obtain ⟨cs, hcs⟩ := h.code
  obtain ⟨ds, hds⟩ := h'.code
  refine ⟨⟨h'.ctx.xBase.trans h.ctx.xBase, h'.ctx.regLocal.trans h.ctx.regLocal, fun r hr => h'.ctx.defined r (h.ctx.defined r hr)⟩,
    ⟨cs ++ ds, ?_⟩, h.pcs.trans h'.pcs, h.n.trans h'.n⟩
  rw [hds, hcs, List.append_assoc]

theorem Le.emit (h : t.Le t') (code : List Code) : t.Le (t'.emit code) := h.trans ⟨.refl _, ⟨code, rfl⟩, List.prefix_rfl, le_rfl⟩

theorem Le.moves (h : t.Le t') (facts : TraceFacts) (pc : U64) : t.Le (t'.moves facts pc) :=
  h.trans ⟨.refl _, ⟨[], (List.append_nil _).symm⟩, List.prefix_rfl, Nat.le_succ _⟩

theorem Le.enters (h : t.Le t') (target : U64) : t.Le (t'.enters target) :=
  h.trans ⟨.refl _, ⟨[], (List.append_nil _).symm⟩, List.prefix_rfl, le_rfl⟩

theorem Le.takes (h : t.Le t') (nextPc : U64) : t.Le (t'.takes nextPc) :=
  h.trans ⟨.refl _, ⟨[], (List.append_nil _).symm⟩, List.prefix_append _ _, le_rfl⟩

theorem Le.assign (h : t.Le t') (d : Fin 32) (value : List Code) : t.Le (t'.assign d value) :=
  h.trans ⟨t'.ctx.le_assign d value, ⟨_, rfl⟩, List.prefix_rfl, le_rfl⟩

/-! The seeds are for the host only. -/

@[simp] theorem seed_ctx (t : Trace) (target : U64) : (t.seed target).ctx = t.ctx := by
  unfold seed
  split_ifs <;> rfl

@[simp] theorem seed_code (t : Trace) (target : U64) : (t.seed target).code = t.code := by
  unfold seed
  split_ifs <;> rfl

@[simp] theorem seed_pc (t : Trace) (target : U64) : (t.seed target).pc = t.pc := by
  unfold seed
  split_ifs <;> rfl

@[simp] theorem seed_n (t : Trace) (target : U64) : (t.seed target).n = t.n := by
  unfold seed
  split_ifs <;> rfl

@[simp] theorem seed_facts (t : Trace) (target : U64) : (t.seed target).facts = t.facts := by
  unfold seed
  split_ifs <;> rfl

@[simp] theorem seed_segEntry (t : Trace) (target : U64) : (t.seed target).segEntry = t.segEntry := by
  unfold seed
  split_ifs <;> rfl

@[simp] theorem seed_tracePcs (t : Trace) (target : U64) : (t.seed target).tracePcs = t.tracePcs := by
  unfold seed
  split_ifs <;> rfl

theorem Le.seed (h : t.Le t') (target : U64) : t.Le (t'.seed target) := by
  obtain ⟨hctx, hcode, hpcs, hn⟩ := h
  refine ⟨?_, ?_, ?_, ?_⟩
  · rw [seed_ctx]
    exact hctx
  · rw [seed_code]
    exact hcode
  · rw [seed_tracePcs]
    exact hpcs
  · rw [seed_n]
    exact hn

end Trace

/-- What holds of a walk where it goes on, and where it stops. -/
def Pace.Meets {α γ : Type} (P : α → Prop) (Q : γ → Prop) : Pace α γ → Prop
  | .go a => P a
  | .stop b => Q b

section

variable (w : CodeWindow) (lay : TraceLayout) (hot : U64 → Bool) (next : U64 → Option U64) (cfg : TranslationConfig) (wm : U32)

open Trace

theorem translateInsn_le (insn : U32) (ilen : U64) (t : Trace) :
    (translateInsn w lay hot next cfg wm insn ilen t).Meets t.Le fun e => t.Le e.1 := by
  have ht : t.Le (t.takes (t.pc + ilen)) := (Le.refl t).takes _
  unfold translateInsn
  dsimp only
  split
  · rename_i ctx code he
    obtain ⟨value, -, hv⟩ := Option.map_eq_some_iff.1 he
    have h := (ht.assign (rd insn) value).moves ((t.takes (t.pc + ilen)).facts.step insn (t.takes (t.pc + ilen)).pc) (t.pc + ilen)
    unfold Trace.assign at h
    rw [hv] at h
    exact h
  · split
    · unfold translateJal
      dsimp only
      split_ifs
      · exact (ht.assign _ _).moves _ _
      · exact ((ht.assign _ _).seed _).emit _
    · split_ifs
      · exact ht
      · unfold translateJalr
        dsimp only
        split
        · split
          · exact (ht.emit _).moves _ _
          · exact ht.moves _ _
        · split
          · exact (((((ht.emit _).assign _ _).emit _).seed _).moves _ _).enters _
          · exact ((ht.emit _).assign _ _).emit _
    · split_ifs
      · unfold translateBranch
        dsimp only
        split_ifs
        · exact ((ht.seed _).seed _).emit _
        · exact ((ht.seed _).emit _).moves _ _
        · exact ((ht.seed _).emit _).moves _ _
        · exact ht.emit _
      · exact ht
    · exact ht

end

/-! ## A run of the function -/

/-- Where a run of the function starts: a hart, the memory that shows it, the pointer the function is called with, and the
instructions that the chain has retired before. -/
structure TraceEntry where
  hart : Cpu
  mem : Memory
  arg : U32
  retired : U64
  start : State

section

/-- The function has been left after a path of instructions, and the memory shows the hart after them. -/
def Gone (w : CodeWindow) (lay : TraceLayout) (cfg : TranslationConfig) (en : TraceEntry) (path : List U64) (e : Exit) : Prop :=
  ∃ c mem, path ≠ [] ∧ w.traceAlong path en.hart = some c ∧
    Shown lay en.mem c.x c.pc (en.retired + BitVec.ofNat 64 path.length) mem ∧ ExitsTo lay cfg en.arg c.pc mem e

/-- The code so far has taken the state to `s`, and the interpreter the hart to `c`. -/
structure Here (w : CodeWindow) (wm : U32) (en : TraceEntry) (t : Trace) (c : Cpu) (s : State) : Prop where
  path : ∃ path, path <+: t.tracePcs ∧ path.length = t.n ∧ w.traceAlong path en.hart = some c
  pc : c.pc = t.pc
  exec : execAll t.code en.start = some (.next s)
  view : t.ctx.View wm en.hart.x c.x s
  stack : s.stack = []
  mem : s.mem = en.mem
  arg : s.locals 0 = some (.i32 en.arg)
  facts : ∀ r v, t.facts.known r = .proven v → c.x r = v

variable (w : CodeWindow) (lay : TraceLayout) (cfg : TranslationConfig) (wm : U32) (en : TraceEntry)

def Live (t : Trace) : Prop := ∃ c s, Here w wm en t c s

def Quit (t : Trace) (n : ℕ) : Prop :=
  ∃ path e, path <+: t.tracePcs ∧ path.length ≤ n ∧ execAll t.code en.start = some (.left e) ∧ Gone w lay cfg en path e

/-- The code so far is still in the trace, or has left it. -/
def Reached (t : Trace) : Prop := Live w wm en t ∨ Quit w lay cfg en t t.n

/-- The code has left the trace, by its end at the latest. -/
def Ended (t : Trace) (n : ℕ) : Prop :=
  ∃ path e, path <+: t.tracePcs ∧ path.length ≤ n ∧ runBody t.code en.start = some e ∧ Gone w lay cfg en path e

/-- The walk has stopped before an instruction, or with one. -/
def Stopped (e : Trace × Option U64) : Prop :=
  (e.2 = none → Reached w lay cfg wm en e.1) ∧ (e.2 ≠ none → Ended w lay cfg en e.1 (e.1.n + 1))

variable {w lay cfg wm en}

theorem Stopped.before {t : Trace} (h : Reached w lay cfg wm en t) : Stopped w lay cfg wm en (t, none) :=
  ⟨fun _ => h, fun hn => absurd rfl hn⟩

theorem Stopped.after {t : Trace} (h : Ended w lay cfg en t (t.n + 1)) (pc : U64) : Stopped w lay cfg wm en (t, some pc) :=
  ⟨fun hn => absurd hn (Option.some_ne_none pc), fun _ => h⟩

theorem Quit.le {t t' : Trace} {n n' : ℕ} (h : Quit w lay cfg en t n) (hl : t.Le t') (hn : n ≤ n') : Quit w lay cfg en t' n' := by
  obtain ⟨path, e, hp, hlen, he, hg⟩ := h
  obtain ⟨cs, hcs⟩ := hl.code
  refine ⟨path, e, hp.trans hl.pcs, hlen.trans hn, ?_, hg⟩
  rw [hcs]
  exact execAll_left he cs

theorem Quit.ended {t : Trace} {n : ℕ} (h : Quit w lay cfg en t n) : Ended w lay cfg en t n := by
  obtain ⟨path, e, hp, hlen, he, hg⟩ := h
  refine ⟨path, e, hp, hlen, ?_, hg⟩
  unfold runBody
  rw [he]
  rfl


/-! ### Facts -/

theorem known_clobber {f : TraceFacts} {insn : U32} {pc u : U64} {l : Option Known} {r : Fin 32}
    (h : (f.clobber insn pc l).known r = .proven u) :
    f.known r = .proven u ∧ (rd insn = 0 ∨ r ≠ rd insn) ∨ r = rd insn ∧ rd insn ≠ 0 ∧ TraceFacts.result insn pc l = .proven u := by
  unfold TraceFacts.clobber at h
  dsimp only at h
  by_cases h0 : rd insn = 0
  · rw [if_pos h0] at h
    exact Or.inl ⟨h, Or.inl h0⟩
  · have hk : Function.update f.known (rd insn) (TraceFacts.result insn pc l) r = .proven u := by
      rw [if_neg h0] at h
      split_ifs at h <;> exact h
    by_cases hr : r = rd insn
    · rw [hr, Function.update_self] at hk
      exact Or.inr ⟨hr, h0, hk⟩
    · rw [Function.update_of_ne hr] at hk
      exact Or.inl ⟨hk, Or.inr hr⟩

theorem known_recordStore (f : TraceFacts) (insn : U32) : (f.recordStore insn).known = f.known := by
  unfold TraceFacts.recordStore
  split_ifs
  · cases f.spDelta <;> rfl
  · rfl

/-- **Facts stay true** across an instruction with this result. -/
theorem facts_step {f : TraceFacts} {insn : U32} {pc v : U64} {x : Fin 32 → U64}
    (h : ∀ r u, f.known r = .proven u → x r = u)
    (hv : ∀ u, opcode insn = 0x37 ∧ u = immU insn ∨ opcode insn = 0x17 ∧ u = pc + immU insn → v = u) (r : Fin 32) (u : U64)
    (hk : (f.step insn pc).known r = .proven u) : Ctx.setReg x (rd insn) v r = u := by
  unfold Ctx.setReg
  rcases known_clobber hk with ⟨hf, hr⟩ | ⟨rfl, h0, hres⟩
  · rw [known_recordStore] at hf
    have hx := h r u hf
    split_ifs with h0
    · exact hx
    · rw [Function.update_of_ne (hr.resolve_left h0)]
      exact hx
  · rw [if_neg h0, Function.update_self]
    refine hv u ?_
    unfold TraceFacts.result at hres
    split at hres
    · exact Or.inl ⟨‹_›, (Known.proven.inj hres).symm⟩
    · exact Or.inr ⟨‹_›, (Known.proven.inj hres).symm⟩
    · cases hl : (f.loaded insn).bind Known.value? <;> rw [hl] at hres <;> cases hres
    · cases hres

/-- The link of a jump is a fact. -/
theorem facts_link {f : TraceFacts} {insn : U32} {pc next : U64} {x : Fin 32 → U64}
    (h : ∀ r u, f.known r = .proven u → x r = u) (ho : opcode insn ≠ 0x37) (ho' : opcode insn ≠ 0x17) (r : Fin 32) (u : U64)
    (hk : ((f.step insn pc).link (rd insn) next).known r = .proven u) : Ctx.setReg x (rd insn) next r = u := by
  unfold TraceFacts.link at hk
  have hstep : ∀ r u, (f.step insn pc).known r = .proven u → Ctx.setReg x (rd insn) next r = u :=
    facts_step h fun u hu => hu.elim (fun hu => absurd hu.1 ho) fun hu => absurd hu.1 ho'
  by_cases h0 : rd insn = 0
  · rw [if_neg (not_not.2 h0)] at hk
    exact hstep r u hk
  · rw [if_pos h0] at hk
    by_cases hr : r = rd insn
    · rw [hr] at hk ⊢
      unfold Ctx.setReg
      dsimp only at hk
      rw [Function.update_self] at hk
      rw [if_neg h0, Function.update_self]
      exact Known.proven.inj hk
    · dsimp only at hk
      rw [Function.update_of_ne hr] at hk
      exact hstep r u hk

end

end Lish
