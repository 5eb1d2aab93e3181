import Lish.Jit.ExactCompletions
import Lish.Jit.Disabled
/-!
# ExactRuns — ownership of compiled code is exact in every run

Every step of the dispatcher keeps the maps exact, and a slot is in use or has been retired once for each time it was handed over.
-/
namespace Lish

namespace OwnedCode

variable {fresh : Prop} {c c' : OwnedCode}

/-- Forgetting everything leaves empty maps. -/
theorem Exact.clear {f : ℤ → ℕ} {g : Gap} (h : Exact fresh f g c) : Exact fresh c.clear.uses .closed c.clear where
  slots := HashMap.Lists.empty.congr fun _ _ => ⟨False.elim, fun hn => nomatch hn⟩
  owned _ _ hs := nomatch hs
  refs i := by
    have : c.clear.uses i = 0 := uses_eq_zero.2 fun _ hs => nomatch hs
    rw [if_pos this]
    rfl
  settled _ _ hs := nomatch hs
  entries := HashMap.Lists.empty.congr fun _ _ => ⟨False.elim, fun hn => nomatch hn.1⟩
  cold _ := ⟨fun hx => absurd hx List.not_mem_nil, fun hx => nomatch hx⟩
  coldNodup := List.nodup_nil
  recency _ := Iff.rfl
  nonneg _ hi := nomatch hi
  exits _ hi := nomatch hi
  exitPcs _ _ _ hs := nomatch hs
  queue _ hi := absurd hi List.not_mem_nil
  modules _ _ := ⟨fun hm => (nomatch hm.1), fun hm => nomatch hm⟩
  moduleSlots _ ho := nomatch ho
  lines pc hpc _ hl := absurd (show NO_PC = pc from hl).symm hpc
  pages _ := HashMap.Lists.empty.congr fun _ _ => ⟨False.elim, fun hn => by obtain ⟨⟨b, hb, -⟩, -⟩ := hn; exact nomatch hb⟩
  regions _ _ hi := nomatch hi
  live hf i := by
    refine ⟨fun hl => ?_, fun hn => nomatch hn⟩
    obtain ⟨hl, hn⟩ := Bool.and_eq_true_iff.1 (show (c.liveSlots i && !((c.slotOwner i).isSome && decide (0 ≤ i))) = true from hl)
    have ho := (h.live hf i).1 hl
    rw [ho, decide_eq_true (h.nonneg i ho)] at hn
    cases hn

theorem clear_pagesGo (c : OwnedCode) : PagesGo c c.clear where
  alive _ ha := nomatch ha
  moduleOwner o := by
    split <;> rename_i ha
    · exact nomatch ha
    · rfl
  modules _ := .inl rfl
  tally i := by
    unfold tally clear
    dsimp only
    by_cases hl : c.liveSlots i = true <;> by_cases ho : (c.slotOwner i).isSome = true <;> by_cases h0 : 0 ≤ i <;> simp [hl, ho, h0]

theorem Exact.pagesGo_refl {f : ℤ → ℕ} {g : Gap} (h : Exact fresh f g c) : PagesGo c c := h.ownersGo_refl.pages

end OwnedCode

namespace Dispatcher

open OwnedCode JitState

variable {M : Type} [FullSystemJitMachine M] {m : M} {fresh : Prop} {d d' : Dispatcher} {a : Action}

/-! ## Steps -/

/-- The state of a dispatcher whose maps are exact. -/
abbrev Owns (fresh : Prop) (d : Dispatcher) : Prop := Exact fresh d.jit.uses .closed d.jit.toOwnedCode

/-- What a step leaves: exact maps, in which no owner has come. -/
structure Keeps (fresh : Prop) (d d' : Dispatcher) : Prop where
  owns : Owns fresh d'
  pages : PagesGo d.jit.toOwnedCode d'.jit.toOwnedCode

theorem Keeps.of_same (h : Owns fresh d) (hc : d'.jit.toOwnedCode = d.jit.toOwnedCode) : Keeps fresh d d' := by
  refine ⟨?_, ?_⟩
  · unfold Owns
    rw [hc]
    exact h
  · rw [hc]
    exact h.pagesGo_refl

theorem Keeps.of_drops {c : OwnedCode} (h : Drops fresh .closed d.jit.toOwnedCode c) : Keeps fresh d (d.setCode c) := ⟨h.exact, h.owners.pages⟩

theorem submit_code {kind : PendingJitKind} {s : U64 × Dispatcher} (h : d.submitPendingJit kind = some s) :
    s.2.jit = d.jit := by
  unfold submitPendingJit at h
  split at h
  · cases h
  · cases h
    rfl

theorem claim_code {ticket aspace : U64} (pages : List (U64 × U64)) : ∀ {j j' : JitState}, j.claimPendingSuperblock ticket aspace pages = some j' →
    j'.toOwnedCode = j.toOwnedCode := by
  unfold claimPendingSuperblock
  induction pages with
  | nil =>
    intro j j' h
    cases h
    rfl
  | cons p l ih =>
    intro j j' h
    rw [List.foldlM_cons] at h
    obtain ⟨j1, h1, h2⟩ := Option.bind_eq_some_iff.1 h
    rw [ih h2]
    unfold claimPage at h1
    dsimp only at h1
    split at h1
    · cases h1
    · cases h1
      rfl

theorem Builds.code (h : Builds d d') : d'.jit.toOwnedCode = d.jit.toOwnedCode := by
  cases h with
  | none => rfl
  | issue r gen hr h =>
    obtain ⟨s, hs, h⟩ := Option.bind_eq_some_iff.1 h
    obtain ⟨j, hj, h⟩ := Option.bind_eq_some_iff.1 h
    cases h
    have := claim_code _ hj
    rw [submit_code hs] at this
    exact this

/-- The state of one page changes, its live code stays. -/
structure Replaces (key : PageKey) (s : PageModuleState) (c c' : OwnedCode) : Prop where
  code : c' = { c with pageModules := c.pageModules.insert key s }
  active : s.activeOwner = (c.pageModules key).bind PageModuleState.activeOwner

theorem Replaces.exact {f : ℤ → ℕ} {g : Gap} {key : PageKey} {s : PageModuleState} {c c' : OwnedCode} (h : Exact fresh f g c) (hr : Replaces key s c c') :
    Exact fresh f g c' := by
  rw [hr.code]
  exact Exact.setPage h (s := some s) hr.active fun k => rfl

/-- An issue of a page module leaves the page to the code that is live on it. -/
theorem issuePageModule_code (d : Dispatcher) (key : PageKey) (source : PageModuleSource) (batch : Option PendingBatch) :
    (d.issuePageModule key source batch).jit.toOwnedCode = d.jit.toOwnedCode ∨
      ∃ s, Replaces key s d.jit.toOwnedCode (d.issuePageModule key source batch).jit.toOwnedCode := by
  -- the code that the decision found live is live
  have hprior : ∀ prior, d.jit.pageModuleDecision key source = .build prior →
      prior.map LivePageModule.owner = (d.jit.pageModules key).bind PageModuleState.activeOwner := by
    intro prior hp
    unfold pageModuleDecision at hp
    cases hk : d.jit.pageModules key with
    | none =>
      rw [hk] at hp
      cases hp
      rfl
    | some s =>
      rw [hk] at hp
      cases s with
      | attempted old =>
        dsimp only at hp
        split at hp
        · cases hp
        · cases hp
          rfl
      | pending old t p => cases hp
      | live code =>
        dsimp only at hp
        split at hp
        · cases hp
          rfl
        · cases hp
  unfold issuePageModule
  cases hdec : d.jit.pageModuleDecision key source with
  | individual => exact .inl rfl
  | awaiting => exact .inl rfl
  | build prior =>
    dsimp only
    cases batch with
    | none =>
      refine .inr ?_
      dsimp only
      unfold recordPageModuleFailure
      cases hpr : prior with
      | none => exact ⟨.attempted source, rfl, by rw [← hprior prior hdec, hpr]; rfl⟩
      | some code => exact ⟨.live code, rfl, by rw [← hprior prior hdec, hpr]; rfl⟩
    | some b =>
      dsimp only
      cases hs : d.submitPendingJit (.batch { b with pageModule := some key }) with
      | none => exact .inl rfl
      | some r =>
        refine .inr ⟨.pending source r.1 prior, ?_, hprior prior hdec⟩
        have hj := submit_code hs
        dsimp only [JitState.setPageModule]
        rw [hj]

theorem countEntry_code (j : JitState) (warm : Option U64) (pc : U64) (interp : ℕ) :
    ((j.countEntry pc interp).recordWarm warm pc).toOwnedCode = (j.countEntry pc interp).toOwnedCode := by
  unfold recordWarm
  cases warm <;> rfl

theorem spendAllowances_code (aspace : U64) (pages : List (U64 × U64)) (j : JitState) :
    (pages.foldl (spendAllowance aspace) j).toOwnedCode = j.toOwnedCode := by
  induction pages generalizing j with
  | nil => rfl
  | cons p l ih => exact ih _

theorem touch_same (c : OwnedCode) (pc : U64) : (c.touch pc).slotOwner = c.slotOwner ∧ (c.touch pc).ownerSlots = c.ownerSlots ∧
    (c.touch pc).pageModuleOwner = c.pageModuleOwner ∧ (c.touch pc).pageModules = c.pageModules ∧
      (c.touch pc).liveSlots = c.liveSlots ∧ (c.touch pc).retired = c.retired := by
  unfold OwnedCode.touch nextJitUseStamp
  dsimp only
  cases (c.cache pc).join with
  | none => exact ⟨rfl, rfl, rfl, rfl, rfl, rfl⟩
  | some block =>
    dsimp only
    cases c.slotOwner block.idx with
    | none => exact ⟨rfl, rfl, rfl, rfl, rfl, rfl⟩
    | some o =>
      dsimp only
      rw [updateOwnerRecency_eq]
      exact ⟨rfl, rfl, rfl, rfl, rfl, rfl⟩

/-- An untranslatable pc gets an entry without a slot; no line calls it, since nothing was cached. -/
theorem blacklist_keeps {pc pa : U64} (h : Owns fresh d) (ht : d.Tiered pc) (hb : d.blacklist pc pa = some d') : Keeps fresh d d' := by
  obtain ⟨c, hc, hb⟩ := Option.map_eq_some_iff.1 hb
  have hslot : entrySlot (some (⟨false, -1, 0, pa, 0⟩ : JitBlock)) = none := rfl
  have hi := h.cacheInsert (fun _ hn => nomatch hn) rfl rfl (fun i r hs => by rw [hslot] at hs; cases hs) hc
  cases hb
  refine ⟨{ hi.exact with lines := fun pc' hpc _ => ?_ }, hi.owners.pages⟩
  intro hl
  have hold := h.lines pc' hpc (fun hn => nomatch hn)
  unfold LineOk at hold
  dsimp only at hl
  rw [hi.dispatch] at hl
  obtain ⟨b, hb, hidx⟩ := hold hl
  have hne : pc' ≠ pc := fun he => by
    rw [he, ht.1] at hb
    cases hb
  refine ⟨b, ?_, ?_⟩
  · change (c.cache pc').join = some b
    rw [hi.cache, HashMap.insert_of_ne hne]
    exact hb
  · change b.idx = (c.dispatch (dslot pc')).idx
    rw [hi.dispatch]
    exact hidx

/-- Every step but a completion and the issue of a page module. -/
theorem Step.keeps (h : Owns fresh d) (hs : Step m d a d') (hc : ∀ t b n, a ≠ .complete t b n) (hp : a ≠ .pageModule) : Keeps fresh d d' := by
  cases hs with
  | complete hc' => exact absurd rfl (hc _ _ _)
  | pageModule ht key source batch hb => exact absurd rfl hp
  | switchSpace gen entriesFull hotFull =>
    cases hotFull with
    | false =>
      refine .of_same h ?_
      unfold JitState.switchSpace
      cases entriesFull <;> rfl
    | true =>
      obtain ⟨keep, hcode, hattempted, hpending, hlive⟩ : ∃ keep : PageKey → PageModuleState → Bool,
          (d.jit.switchSpace gen entriesFull true).toOwnedCode =
            { d.jit.toOwnedCode with pageModules := d.jit.pageModules.retain keep } ∧
          (∀ key source, keep key (.attempted source) = false) ∧
          (∀ key source t prior, keep key (.pending source t prior) = true) ∧ ∀ key code, keep key (.live code) = true := by
        unfold JitState.switchSpace
        cases entriesFull
        · exact ⟨_, rfl, fun _ _ => rfl, fun _ _ _ _ => rfl, fun _ _ => rfl⟩
        · exact ⟨_, rfl, fun _ _ => rfl, fun _ _ _ _ => rfl, fun _ _ => rfl⟩
      refine ⟨?_, ?_⟩
      · unfold Owns
        rw [hcode]
        refine Exact.forgetPages h fun key s _ hn => ?_
        cases s with
        | attempted source => rfl
        | pending source t prior => exact absurd hn (by rw [hpending]; simp)
        | live code => exact absurd hn (by rw [hlive]; simp)
      · rw [hcode]
        refine ⟨fun o ha => ha, h.ownersGo_refl.moduleOwner, fun key => ?_, fun i => rfl⟩
        dsimp only
        unfold HashMap.retain
        cases hk : d.jit.pageModules key with
        | none => exact .inl rfl
        | some s =>
          cases s with
          | attempted source =>
            rw [Option.filter_some, hattempted]
            exact .inl rfl
          | pending source t prior =>
            have hsame := h.ownersGo_refl.modules key
            rw [hk] at hsame
            rw [Option.filter_some, hpending]
            exact .inr hsame
          | live code =>
            have hsame := h.ownersGo_refl.modules key
            rw [hk] at hsame
            rw [Option.filter_some, hlive]
            exact .inr hsame
  | drain hd ho hj =>
    have h1 := drainPages_drops (s := ⟨d.jit, fun _ => false, fun _ => false⟩) h hd
    obtain ⟨h2, h3⟩ := invalidate_exact h1.exact ho hj
    exact ⟨h2, h1.owners.pages.trans h3⟩
  | touch pc =>
    obtain ⟨h1, h2, h3, h4, h5, h6⟩ := touch_same d.jit.toOwnedCode pc
    exact ⟨Exact.touch h pc, (h.ownersGo h1 h2 h3 h4 h5 h6).pages⟩
  | resolve hr => exact .of_drops (Exact.resolve h rfl rfl hr)
  | extendInline hr => exact .of_drops (Exact.extendInline h rfl hr)
  | dropBailing hr => exact .of_drops (Exact.dropBailing h rfl rfl hr)
  | demote hr =>
    unfold demoteRegion at hr
    split at hr
    · cases hr
      exact .of_same h rfl
    · rename_i r hx
      obtain ⟨c, hc, hr⟩ := Option.map_eq_some_iff.1 hr
      cases hr
      have hd := Exact.demoteEntries h rfl hx hc
      refine ⟨?_, ?_⟩
      · unfold Owns
        rw [spendAllowances_code]
        exact hd.exact
      · rw [spendAllowances_code]
        exact hd.owners.pages
  | @queueExtension i hi =>
    have hgo : OwnersGo d.jit.toOwnedCode { d.jit.toOwnedCode with extQueue := d.jit.extQueue ++ [i] } := h.ownersGo rfl rfl rfl rfl rfl rfl
    refine ⟨{ h with queue := fun k hk => ?_ }, hgo.pages⟩
    rcases List.mem_append.1 hk with hk | hk
    · exact h.queue k hk
    · rw [List.mem_singleton.1 hk]
      exact h.exits i hi
  | @extend _ i queue hidx hq sampling hb =>
    have hx : ∀ k r, (if sampling then d.jit.regionExits else d.jit.regionExits.remove i) k = some r → d.jit.regionExits k = some r := by
      intro k r hk
      split at hk
      · exact hk
      · exact (HashMap.remove_eq_some.1 hk).2
    have h1 : Exact fresh d.jit.uses .closed { d.jit.toOwnedCode with
        extQueue := queue, regionExits := if sampling then d.jit.regionExits else d.jit.regionExits.remove i } := { h with
      queue := fun k hk => h.queue k (hq.subset hk)
      exits := fun k hk => by
        obtain ⟨r, hr⟩ := Option.isSome_iff_exists.1 hk
        exact h.exits k (by rw [hx k r hr]; rfl)
      exitPcs := fun pc k r hs hr => h.exitPcs pc k r hs (hx k r hr) }
    have hgo : OwnersGo d.jit.toOwnedCode { d.jit.toOwnedCode with
        extQueue := queue, regionExits := if sampling then d.jit.regionExits else d.jit.regionExits.remove i } := h.ownersGo rfl rfl rfl rfl rfl rfl
    have hcode := hb.code
    refine ⟨?_, ?_⟩
    · unfold Owns
      rw [hcode]
      exact h1
    · rw [hcode]
      exact hgo.pages
  | buildQueued hk hb => exact .of_same h hb.code
  | build ht hb => exact .of_same h hb.code
  | block ht hsub => exact .of_same h (by rw [submit_code hsub])
  | batch ht hpm hsub => exact .of_same h (by rw [submit_code hsub])
  | submitStage ht hsub =>
    unfold submitConfirmedStage at hsub
    split at hsub
    · cases hsub
    · obtain ⟨s, hs, rfl⟩ := Option.map_eq_some_iff.1 hsub
      exact .of_same h (by
        change s.2.jit.toOwnedCode = _
        rw [submit_code hs])
  | blacklist ht hb => exact blacklist_keeps h ht hb
  | recordEntry ht aspace hot =>
    refine .of_same h ?_
    cases hot <;> rfl
  | count pc hc' =>
    have hgo : OwnersGo d.jit.toOwnedCode (d.countPc pc).jit.toOwnedCode := h.ownersGo rfl rfl rfl rfl rfl rfl
    exact ⟨{ h with }, hgo.pages⟩
  | observe pc interp warm tiered ht =>
    have hcode := countEntry_code d.jit warm pc interp
    have hgo : OwnersGo d.jit.toOwnedCode { (d.jit.countEntry pc interp).toOwnedCode with
        hot := if tiered then d.jit.hot.insert pc d.jitThreshold else d.jit.hot } := h.ownersGo rfl rfl rfl rfl rfl rfl
    refine ⟨?_, ?_⟩
    · unfold Owns
      dsimp only
      rw [hcode]
      exact { h with }
    · dsimp only
      rw [hcode]
      exact hgo.pages
  | disable => exact ⟨Exact.clear h, clear_pagesGo _⟩
  | reset => exact ⟨Exact.clear h, clear_pagesGo _⟩
  | enable => exact .of_same h rfl
  | _ => exact .of_same h rfl

/-- Every compile in flight for a page is one of entries of the page. -/
def AllProper (d : Dispatcher) : Prop := ∀ p ∈ d.pendingJit, p.Proper

theorem AllProper.step (h : d.AllProper) (hs : Step m d a d') : d'.AllProper := fun p hp =>
  (hs.grows p hp).elim (h p) And.right

/-! ## Runs -/

/-- How often the host has handed a slot over, after a step. -/
def handed (m : M) (d : Dispatcher) (count : ℤ → ℕ) (a : Action) : ℤ → ℕ :=
  match a with
  | .complete ticket base slotCount => fun i => count i + if d.adopts m ticket base slotCount ∧ Names base slotCount i then 1 else 0
  | _ => count

/-- The host answers with a signed word, and hands out slots that are not in use. -/
def HandsFresh (d : Dispatcher) (a : Action) : Prop :=
  match a with
  | .complete _ base slotCount => InRange base ∧ FreshSlots d.jit.toOwnedCode base slotCount
  | _ => True

/-- The runs from a first state, with the count of the slots handed over. -/
inductive SlotRun (M : Type) [FullSystemJitMachine M] (d₀ : Dispatcher) : Dispatcher → (ℤ → ℕ) → Prop
  | start : SlotRun M d₀ d₀ fun _ => 0
  | step {m : M} {d d' : Dispatcher} {a : Action} {count : ℤ → ℕ} (h : SlotRun M d₀ d count) (hP : d.HandsFresh a) (hs : Step m d a d') :
      SlotRun M d₀ d' (d.handed m count a)

theorem owns_new (fresh : Prop) (settings : JitSettings) : Owns fresh (Dispatcher.new settings) where
  slots := HashMap.Lists.empty.congr fun _ _ => ⟨False.elim, fun hn => nomatch hn⟩
  owned _ _ hs := nomatch hs
  refs i := by
    have : (Dispatcher.new settings).jit.uses i = 0 := uses_eq_zero.2 fun _ hs => nomatch hs
    rw [if_pos this]
    rfl
  settled _ _ hs := nomatch hs
  entries := HashMap.Lists.empty.congr fun _ _ => ⟨False.elim, fun hn => nomatch hn.1⟩
  cold _ := ⟨fun hx => absurd hx List.not_mem_nil, fun hx => nomatch hx⟩
  coldNodup := List.nodup_nil
  recency _ := Iff.rfl
  nonneg _ hi := nomatch hi
  exits _ hi := nomatch hi
  exitPcs _ _ _ hs := nomatch hs
  queue _ hi := absurd hi List.not_mem_nil
  modules _ _ := ⟨fun hm => (nomatch hm.1), fun hm => nomatch hm⟩
  moduleSlots _ ho := nomatch ho
  lines pc hpc _ hl := absurd (show NO_PC = pc from hl).symm hpc
  pages _ := HashMap.Lists.empty.congr fun _ _ => ⟨False.elim, fun hn => by obtain ⟨⟨b, hb, -⟩, -⟩ := hn; exact nomatch hb⟩
  regions _ _ hi := nomatch hi
  live _ _ := ⟨fun hl => (nomatch hl), fun hn => nomatch hn⟩

/-- **Every step** of the dispatcher keeps the maps exact, and counts the slots it is handed. -/
theorem Step.exact {count : ℤ → ℕ} (h : Owns True d) (hp : d.AllProper) (ht : ∀ i, d.jit.tally i = count i) (hf : d.HandsFresh a)
    (hs : Step m d a d') : Owns True d' ∧ ∀ i, d'.jit.tally i = d.handed m count a i := by
  by_cases hc : ∃ t b n, a = .complete t b n
  · obtain ⟨t, b, n, rfl⟩ := hc
    obtain ⟨hb, hfresh⟩ := hf
    cases hs with
    | complete hr =>
      have hset := completeJit_exact h hp hb (fun _ => hfresh) hr
      exact ⟨hset.exact, fun i => by rw [hset.tally hfresh i, ht i]; rfl⟩
  · have hsame : d.handed m count a = count := by
      unfold handed
      split
      · exact absurd ⟨_, _, _, rfl⟩ hc
      · rfl
    rw [hsame]
    by_cases hpm : a = .pageModule
    · subst hpm
      cases hs with
      | pageModule _ key source batch _ =>
        rcases issuePageModule_code d key source batch with hcode | ⟨s, hr⟩
        · have hk : Keeps True d _ := .of_same h hcode
          exact ⟨hk.owns, fun i => (hk.pages.tally i).trans (ht i)⟩
        · have he := hr.exact h
          refine ⟨?_, fun i => ?_⟩
          · unfold Owns
            have : (d.issuePageModule key source batch).jit.uses = d.jit.uses := by rw [hr.code]; rfl
            rw [this]
            exact he
          · rw [hr.code]
            exact ht i
    · have hk := Step.keeps h hs (fun t b n he => hc ⟨t, b, n, he⟩) hpm
      exact ⟨hk.owns, fun i => (hk.pages.tally i).trans (ht i)⟩

theorem SlotRun.exact {settings : JitSettings} {count : ℤ → ℕ} (h : SlotRun M (Dispatcher.new settings) d count) :
    Owns True d ∧ d.AllProper ∧ ∀ i, d.jit.tally i = count i := by
  induction h with
  | start => exact ⟨owns_new True settings, fun _ hp => absurd hp List.not_mem_nil, fun _ => rfl⟩
  | step _ hP hs ih =>
    obtain ⟨hown, hprop, ht⟩ := ih
    obtain ⟨h1, h2⟩ := hs.exact hown hprop ht hP
    exact ⟨h1, hprop.step hs, h2⟩

/-- What the maps of compiled code say, after slots were handed over `count` times: each is the one that the cache and the owners of the
slots determine, and a slot is in use exactly while an entry runs in it, and was retired every other time. -/
structure OwnershipExact (count : ℤ → ℕ) (c : OwnedCode) : Prop where
  slots : c.ownerSlots.Lists fun o i => c.slotOwner i = some o
  refs : ∀ i, c.slotRefs i = if c.uses i = 0 then none else some (c.uses i)
  entries : c.ownerEntries.Lists fun o pc => c.ownerAt pc = some o
  cold : c.coldOwners.Nodup ∧ ∀ stamp o, (stamp, o) ∈ c.coldOwners ↔ c.ownerRecency o = some stamp
  pages : c.pageBlocks.Lists fun page pc => c.Covers pc page
  retired : ∀ i, (c.retired i).length + (if c.liveSlots i then 1 else 0) = count i
  live : ∀ i, c.liveSlots i = true ↔ 0 < c.uses i
  lines : ∀ pc, pc ≠ NO_PC → (c.dispatch (dslot pc)).pc = pc → 0 ≤ (c.dispatch (dslot pc)).idx → c.liveSlots (c.dispatch (dslot pc)).idx = true
  regions : ∀ i, (c.regions i).isSome ∨ (c.regionExits i).isSome ∨ i ∈ c.extQueue → c.liveSlots i = true

end Dispatcher
end Lish
