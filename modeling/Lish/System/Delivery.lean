import Lish.System.PlicBus
/-!
# Delivery — what the interrupt controller hands out

Claims against the history of a run: the lines at the last refresh, and the sources claimed and not completed since.
-/
namespace Lish

open VirtBus Plic

/-! ## Runs and their history -/

/-- What happens around the controller. -/
inductive PlicEvent
  /-- Anything else of the machine changes, device lines among it. -/
  | device (f : VirtBus → VirtBus)
  /-- The hart's lines are read, from refreshed sources. -/
  | irqLines
  | load (w : Width) (addr : U64)
  | store (w : Width) (addr val : U64)

/-- The sources asserted at the last refresh, and those claimed and not completed since. -/
structure Service where
  asserted : ℕ → Prop
  inService : ℕ → Prop

namespace PlicEvent

def apply (b : VirtBus) : PlicEvent → VirtBus
  | device f => { f b with plic := b.plic }
  | irqLines => (Bus.irqLines b).2
  | load w addr => (busRead w b addr).2
  | store w addr val => (busWrite w b addr val).2

/-- The source that a load of a claim register answers with. -/
def Answers (w : Width) (b : VirtBus) (addr : U64) (i : ℕ) : Prop :=
  (claimContext addr).isSome = true ∧ ∃ v, (busRead w b addr).1 = .ok v ∧ v.toNat = i

/-- The source that a store to a claim register completes. -/
def Completes (w : Width) (addr val : U64) (i : ℕ) : Prop :=
  (claimContext addr).isSome = true ∧ ((cut w val).setWidth 32).toNat = i

def note (b : VirtBus) (g : Service) : PlicEvent → Service
  | device _ => g
  | irqLines => { g with asserted := fun i => i < PLIC_SOURCES ∧ b.Line i }
  | load w addr => { g with inService := fun i => g.inService i ∨ (i ≠ 0 ∧ Answers w b addr i) }
  | store w addr val => { g with inService := fun i => g.inService i ∧ ¬ Completes w addr val i }

def step (s : VirtBus × Service) (e : PlicEvent) : VirtBus × Service := (apply s.1 e, note s.1 s.2 e)

/-- A machine whose controller has just been reset. -/
def boot (b : VirtBus) : VirtBus × Service := ({ b with plic := .new }, ⟨fun _ => False, fun _ => False⟩)

def after (b : VirtBus) (es : List PlicEvent) : VirtBus × Service := es.foldl step (boot b)

theorem after_append (b : VirtBus) (es es' : List PlicEvent) : after b (es ++ es') = es'.foldl step (after b es) := List.foldl_append

/-- A source that a context may be given, by the history. -/
def Eligible (s : VirtBus × Service) (ctx : Fin 2) (i : ℕ) : Prop :=
  s.2.asserted i ∧ (s.1.plic.enable ctx).getLsbD i = true ∧ s.1.plic.threshold ctx < s.1.plic.priority i ∧ ¬ s.2.inService i

/-- The controller's bits are the history. -/
structure Tracks (s : VirtBus × Service) : Prop where
  asserted : ∀ i, s.1.plic.pending.getLsbD i = true ↔ s.2.asserted i
  inService : ∀ i, s.1.plic.claimed.getLsbD i = true ↔ s.2.inService i
  sourceZero : s.1.plic.NoSourceZero

theorem tracks_boot (b : VirtBus) : Tracks (boot b) :=
  ⟨fun i => by simp [boot, Plic.new], fun i => by simp [boot, Plic.new], fun ctx => by simp [boot, Plic.new]⟩

theorem Tracks.candidate {s : VirtBus × Service} (h : Tracks s) (ctx : Fin 2) (i : ℕ) :
    s.1.plic.Candidate ctx i ↔ Eligible s ctx i := by
  unfold Candidate Eligible
  rw [h.asserted, ← h.inService, Bool.not_eq_true]
  tauto

theorem answers_claim (w : Width) (b : VirtBus) (ctx : Fin 2) (i : ℕ) : Answers w b (claimAddr ctx) i ↔ i = b.plic.best ctx := by
  have hlt := best_lt b.plic ctx
  unfold Answers
  rw [claimContext_claimAddr, busRead_claim]
  have hto : (BitVec.ofNat 64 (b.plic.best ctx)).toNat = b.plic.best ctx := by
    rw [BitVec.toNat_ofNat]
    omega
  constructor
  · rintro ⟨-, v, hv, rfl⟩
    cases hv
    exact hto
  · rintro rfl
    exact ⟨rfl, _, rfl, hto⟩

theorem Tracks.load {s : VirtBus × Service} (h : Tracks s) (w : Width) (addr : U64) : Tracks (step s (.load w addr)) := by
  cases hc : claimContext addr with
  | none =>
    have hp := busRead_plic w s.1 hc
    change Tracks ((busRead w s.1 addr).2, { s.2 with inService := _ })
    refine ⟨fun i => ?_, fun i => ?_, ?_⟩
    · dsimp only
      rw [hp]
      exact h.asserted i
    · dsimp only
      rw [hp, h.inService, Answers, hc]
      simp
    · dsimp only
      rw [hp]
      exact h.sourceZero
  | some ctx =>
    obtain rfl := claimContext_some hc
    change Tracks ((busRead w s.1 (claimAddr ctx)).2, { s.2 with inService := _ })
    rw [busRead_claim]
    have hbits : ∀ i, (s.1.plic.claim ctx).claimed.getLsbD i = true ↔
        s.1.plic.claimed.getLsbD i = true ∨ (i ≠ 0 ∧ i = s.1.plic.best ctx) := fun i => by
      unfold claim
      split_ifs with hb
      · rw [getLsbD_mark _ (best_lt _ _), Bool.or_eq_true, decide_eq_true_iff]
        exact or_congr_right ⟨fun he => ⟨he ▸ hb, he.symm⟩, fun he => he.2.symm⟩
      · rw [not_not] at hb
        rw [hb]
        exact ⟨.inl, fun ho => ho.elim id fun he => absurd he.2 he.1⟩
    have hrest : (s.1.plic.claim ctx).pending = s.1.plic.pending ∧ (s.1.plic.claim ctx).enable = s.1.plic.enable := by
      unfold claim
      split_ifs <;> exact ⟨rfl, rfl⟩
    refine ⟨fun i => ?_, fun i => ?_, fun c => ?_⟩
    · dsimp only
      rw [hrest.1]
      exact h.asserted i
    · dsimp only
      rw [hbits, h.inService, answers_claim]
    · dsimp only
      rw [hrest.2]
      exact h.sourceZero c

/-- **One event** keeps the bits and the history together. -/
theorem Tracks.step {s : VirtBus × Service} (h : Tracks s) (e : PlicEvent) : Tracks (step s e) := by
  cases e with
  | device f => exact ⟨h.asserted, h.inService, h.sourceZero⟩
  | irqLines => exact ⟨getLsbD_sources s.1, h.inService, h.sourceZero⟩
  | load w addr => exact h.load w addr
  | store w addr val =>
    have hs := stored_busWrite w s.1 addr val
    refine ⟨fun i => ?_, fun i => ?_, hs.sourceZero h.sourceZero⟩
    · change (busWrite w s.1 addr val).2.plic.pending.getLsbD i = true ↔ s.2.asserted i
      rw [hs.pending]
      exact h.asserted i
    · change (busWrite w s.1 addr val).2.plic.claimed.getLsbD i = true ↔ s.2.inService i ∧ ¬ Completes w addr val i
      rw [hs.claimed, ← h.inService, Completes, Bool.and_eq_true, Bool.not_eq_true', Bool.and_eq_false_iff, decide_eq_false_iff_not,
        not_and_or, Bool.not_eq_true, or_comm]

theorem tracks_after (b : VirtBus) (es : List PlicEvent) : Tracks (after b es) := by
  induction es using List.reverseRecOn with
  | nil => exact tracks_boot b
  | append_singleton es e ih =>
    rw [after_append]
    exact ih.step e

/-! ## What a claim answers -/

/-- The answer to a claim: 0 where no source is eligible, else the eligible source of highest priority and lowest number. -/
def RightSource (s : VirtBus × Service) (ctx : Fin 2) (v : U64) : Prop :=
  (v = 0 ∧ ∀ i, ¬ Eligible s ctx i) ∨
    (v ≠ 0 ∧ Eligible s ctx v.toNat ∧ ∀ i, Eligible s ctx i →
      s.1.plic.priority i < s.1.plic.priority v.toNat ∨ (s.1.plic.priority i = s.1.plic.priority v.toNat ∧ v.toNat ≤ i))

/-- No two of the eligible sources share the highest priority. -/
def Untied (s : VirtBus × Service) (ctx : Fin 2) : Prop :=
  ∀ i j, Eligible s ctx i → Eligible s ctx j → (∀ k, Eligible s ctx k → s.1.plic.priority k ≤ s.1.plic.priority i) →
    s.1.plic.priority j = s.1.plic.priority i → i = j

theorem best_toNat (p : Plic) (ctx : Fin 2) : (BitVec.ofNat 64 (p.best ctx)).toNat = p.best ctx := by
  have hlt := best_lt p ctx
  rw [BitVec.toNat_ofNat]
  omega

/-- What the controller answers, by the history: of the best sources the highest number. -/
theorem Tracks.best {s : VirtBus × Service} (h : Tracks s) (ctx : Fin 2) :
    (s.1.plic.best ctx = 0 ∧ ∀ i, ¬ Eligible s ctx i) ∨
      (s.1.plic.best ctx ≠ 0 ∧ Eligible s ctx (s.1.plic.best ctx) ∧ ∀ i, Eligible s ctx i →
        s.1.plic.priority i < s.1.plic.priority (s.1.plic.best ctx) ∨
          (s.1.plic.priority i = s.1.plic.priority (s.1.plic.best ctx) ∧ i ≤ s.1.plic.best ctx)) := by
  have hc := h.candidate ctx
  rcases best_spec h.sourceZero ctx with ⟨h0, hnone⟩ | ⟨hne, -, hok, hbest⟩
  · exact .inl ⟨h0, fun i hi => hnone i ((hc i).2 hi)⟩
  · exact .inr ⟨hne, (hc _).1 hok, fun i hi => hbest i ((hc i).2 hi)⟩

theorem Tracks.rightSource_iff {s : VirtBus × Service} (h : Tracks s) (ctx : Fin 2) :
    RightSource s ctx (BitVec.ofNat 64 (s.1.plic.best ctx)) ↔ Untied s ctx := by
  unfold RightSource
  rw [best_toNat]
  have hzero : BitVec.ofNat 64 (s.1.plic.best ctx) = 0 ↔ s.1.plic.best ctx = 0 := by
    rw [← best_toNat s.1.plic ctx, BitVec.ofNat_toNat, BitVec.setWidth_eq, ← BitVec.toNat_inj]
    rfl
  rw [ne_eq, hzero]
  rcases h.best ctx with ⟨h0, hnone⟩ | ⟨hne, hok, hbest⟩
  · exact ⟨fun _ i j hi => absurd hi (hnone i), fun _ => .inl ⟨h0, hnone⟩⟩
  · constructor
    · rintro (⟨h0, -⟩ | ⟨-, -, hlow⟩) i j hi hj hmax heq
      · exact absurd h0 hne
      -- both are of the highest priority, and the answer lies at or above and at or below each
      have side : ∀ k, Eligible s ctx k → s.1.plic.priority (s.1.plic.best ctx) ≤ s.1.plic.priority k → k = s.1.plic.best ctx := by
        intro k hk hle
        have hle := BitVec.le_def.1 hle
        rcases hlow k hk with hlt | ⟨-, hlo⟩
        · have := BitVec.lt_def.1 hlt
          omega
        rcases hbest k hk with hlt | ⟨-, hhi⟩
        · have := BitVec.lt_def.1 hlt
          omega
        exact Nat.le_antisymm hhi hlo
      have hi' := side i hi (hmax _ hok)
      have hj' := side j hj (by rw [heq]; exact hmax _ hok)
      rw [hi', hj']
    · intro hu
      refine .inr ⟨hne, hok, fun i hi => ?_⟩
      rcases hbest i hi with hlt | ⟨heq, -⟩
      · exact .inl hlt
      refine .inr ⟨heq, le_of_eq (hu _ i hok hi (fun k hk => ?_) heq)⟩
      rcases hbest k hk with hlt | ⟨he, -⟩
      · exact BitVec.le_of_lt hlt
      · exact BitVec.le_of_eq he

/-! ## Delivery over a run -/

/-- What the guest can rely on in a run. -/
structure Delivers (b : VirtBus) (es : List PlicEvent) : Prop where
  claim : ∀ pre w ctx post, es = pre ++ load w (claimAddr ctx) :: post →
    ∃ v, (busRead w (after b pre).1 (claimAddr ctx)).1 = .ok v ∧ RightSource (after b pre) ctx v
  /-- Until its completion no context is given a source again. -/
  once : ∀ pre w addr post, es = pre ++ load w addr :: post →
    ∀ i, (after b pre).2.inService i → ¬ Answers w (after b pre).1 addr i
  /-- The hart's lines are raised by eligible sources only, and by each of them. -/
  lines : ∀ pre post, es = pre ++ irqLines :: post →
    ∀ ctx, (Bus.irqLines (after b pre).1).1 &&& externalLine ctx ≠ 0 ↔ ∃ i, Eligible (after b (pre ++ [irqLines])) ctx i
  /-- A source whose line is still asserted at a refresh after its completion is eligible again. -/
  again : ∀ pre w addr val mid post i, es = pre ++ store w addr val :: mid ++ irqLines :: post → Completes w addr val i →
    (∀ pre' w' addr' post', mid = pre' ++ load w' addr' :: post' →
      ¬ Answers w' (after b (pre ++ store w addr val :: pre')).1 addr' i) →
    i < PLIC_SOURCES → (after b (pre ++ store w addr val :: mid)).1.Line i →
    ∀ ctx, ((after b (pre ++ store w addr val :: mid)).1.plic.enable ctx).getLsbD i = true →
      (after b (pre ++ store w addr val :: mid)).1.plic.threshold ctx < (after b (pre ++ store w addr val :: mid)).1.plic.priority i →
        Eligible (after b (pre ++ store w addr val :: mid ++ [irqLines])) ctx i

/-- At no claim of a run are the best sources tied. -/
def NeverTied (b : VirtBus) (es : List PlicEvent) : Prop :=
  ∀ pre w ctx post, es = pre ++ load w (claimAddr ctx) :: post → Untied (after b pre) ctx

theorem inService_ne_zero (b : VirtBus) (es : List PlicEvent) {i : ℕ} (h : (after b es).2.inService i) : i ≠ 0 := by
  induction es using List.reverseRecOn with
  | nil => exact h.elim
  | append_singleton es e ih =>
    rw [after_append] at h
    cases e with
    | device f => exact ih h
    | irqLines => exact ih h
    | load w addr => exact h.elim ih fun ha => ha.1
    | store w addr val => exact ih h.1

/-- A source in service is not handed out. -/
theorem Tracks.once {s : VirtBus × Service} (h : Tracks s) (w : Width) (addr : U64) {i : ℕ} (h0 : i ≠ 0) (hi : s.2.inService i) :
    ¬ Answers w s.1 addr i := by
  intro ha
  obtain ⟨ctx, hc⟩ := Option.isSome_iff_exists.1 ha.1
  rw [claimContext_some hc, answers_claim] at ha
  rcases h.best ctx with ⟨hb, -⟩ | ⟨-, hok, -⟩
  · exact h0 (ha.trans hb)
  · rw [← ha] at hok
    exact hok.2.2.2 hi

/-- A source that is not in service stays so until it is handed out. -/
theorem not_inService {b : VirtBus} {es mid : List PlicEvent} {i : ℕ} (h : ¬ (after b es).2.inService i)
    (hm : ∀ pre' w' addr' post', mid = pre' ++ load w' addr' :: post' → ¬ Answers w' (after b (es ++ pre')).1 addr' i) :
    ¬ (after b (es ++ mid)).2.inService i := by
  induction mid using List.reverseRecOn with
  | nil => rwa [List.append_nil]
  | append_singleton mid e ih =>
    have hmid := ih fun pre' w' addr' post' he => hm pre' w' addr' (post' ++ [e]) (by rw [he]; simp)
    rw [← List.append_assoc, after_append]
    change ¬ (note (after b (es ++ mid)).1 (after b (es ++ mid)).2 e).inService i
    cases e with
    | device f => exact hmid
    | irqLines => exact hmid
    | load w addr => exact fun hc => hc.elim hmid fun ha => hm mid w addr [] rfl ha.2
    | store w addr val => exact fun hc => hmid hc.1

/-- **The controller** delivers the right source, once, and loses no level, exactly in the runs whose claims never meet a
tie. -/
theorem delivers_iff (b : VirtBus) (es : List PlicEvent) : Delivers b es ↔ NeverTied b es := by
  constructor
  · intro h pre w ctx post he
    obtain ⟨v, hv, hright⟩ := h.claim pre w ctx post he
    rw [busRead_claim] at hv
    obtain rfl := Except.ok.inj hv
    exact ((tracks_after b pre).rightSource_iff ctx).1 hright
  · intro hu
    refine ⟨fun pre w ctx post he => ?_, fun pre w addr post he i hi => ?_, fun pre post he ctx => ?_, ?_⟩
    · exact ⟨_, by rw [busRead_claim], ((tracks_after b pre).rightSource_iff ctx).2 (hu pre w ctx post he)⟩
    · exact (tracks_after b pre).once w addr (inService_ne_zero b pre hi) hi
    · have ht := tracks_after b (pre ++ [irqLines])
      change (after b pre).1.lines &&& externalLine ctx ≠ 0 ↔ _
      rw [lines_external]
      rw [after_append] at ht ⊢
      refine (pendingCtx_iff ht.sourceZero ctx).trans (exists_congr fun i => ?_)
      exact ht.candidate ctx i
    · intro pre w addr val mid post i he hc hm hlt hline ctx hen hth
      have hout : ¬ (after b (pre ++ [store w addr val])).2.inService i := by
        rw [after_append]
        exact fun hs => hs.2 hc
      have hkept := @not_inService _ _ mid _ hout fun pre' w' addr' post' he' => by
        rw [List.append_assoc]
        exact hm pre' w' addr' post' he'
      rw [List.append_assoc, List.singleton_append] at hkept
      rw [after_append]
      exact ⟨⟨hlt, hline⟩, hen, hth, hkept⟩

/-- The serial port and the clock interrupt at once, at the same priority. -/
def bothPending : List PlicEvent :=
  [device fun b => { b with uart := { b.uart with ier := 1, rx := [0x41] }, rtc := { b.rtc with irqPending := true } },
    store .w4 0x0c000028 1, store .w4 0x0c00002c 1, store .w4 0x0c002080 0xc00, irqLines]

def bareBus : VirtBus := (VirtMachine.new ⟨4096, fun _ => 0, 0, RAM_page_fits, ptr_page_fits⟩ [] false 0 0 0).hart.bus

/-- The clock, source 11, is handed out before the serial port, source 10. -/
theorem tie_highest : ¬ Delivers bareBus (bothPending ++ [load .w4 (claimAddr 1)]) := by
  intro h
  obtain ⟨v, hv, hright⟩ := h.claim bothPending .w4 1 [] rfl
  rw [busRead_claim] at hv
  obtain rfl := Except.ok.inj hv
  have hbest : (after bareBus bothPending).1.plic.best 1 = 11 := by decide +kernel
  have htie : (after bareBus bothPending).1.plic.priority 10 = (after bareBus bothPending).1.plic.priority 11 := by decide +kernel
  have hserial : Eligible (after bareBus bothPending) 1 10 := by
    rw [← (tracks_after bareBus bothPending).candidate]
    unfold Candidate
    decide +kernel
  rw [hbest] at hright
  rcases hright with ⟨h0, -⟩ | ⟨-, -, hlow⟩
  · exact absurd h0 (by decide)
  · rcases hlow 10 hserial with hlt | ⟨-, hle⟩
    · change (after bareBus bothPending).1.plic.priority 10 < (after bareBus bothPending).1.plic.priority 11 at hlt
      rw [htie] at hlt
      exact absurd hlt (BitVec.lt_irrefl _)
    · exact absurd hle (by decide)

end PlicEvent
end Lish
