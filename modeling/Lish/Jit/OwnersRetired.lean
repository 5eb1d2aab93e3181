import Lish.Jit.DispatcherSteps
import Lish.Jit.Ownership
/-!
# OwnersRetired — dropping entries, modules and pages keeps the maps exact

Whatever drops code does it entry by entry, and a slot goes with its last entry.
-/
namespace Lish
namespace OwnedCode

variable {fresh : Prop} {c c' c'' : OwnedCode} {f : ℤ → ℕ} {g : Gap} {o : JitOwnerId} {i : ℤ} {pc : U64}

theorem Drops.trans {g' : Gap} (h : Drops fresh g c c') (h' : Drops fresh g' c' c'') : Drops fresh g' c c'' :=
  ⟨h'.exact, h.owners.trans h'.owners, h.entries.trans h'.entries⟩

theorem Exact.drops_refl (h : Exact fresh c.uses g c) : Drops fresh g c c := ⟨h, h.ownersGo_refl, .refl c⟩

/-- A fold of steps that drop code. -/
theorem Exact.foldlM_drops {α : Type} {step : OwnedCode → α → Option OwnedCode}
    (hs : ∀ c a c', Exact fresh c.uses g c → step c a = some c' → Drops fresh g c c') (l : List α) :
    ∀ {c c' : OwnedCode}, Exact fresh c.uses g c → l.foldlM step c = some c' → Drops fresh g c c' := by
  induction l with
  | nil => exact fun h hr => Option.some.inj hr ▸ h.drops_refl
  | cons a l ih =>
    intro c c' h hr
    rw [List.foldlM_cons] at hr
    obtain ⟨c1, h1, h2⟩ := Option.bind_eq_some_iff.1 hr
    have hd := hs c a c1 h h1
    exact hd.trans (ih hd.exact h2)

/-! ## Dispatch lines -/

theorem clearLineOf_eq (c : OwnedCode) (pc : U64) : c.clearLineOf pc = { c with dispatch := (c.clearLineOf pc).dispatch } := by
  unfold clearLineOf
  split <;> rfl

theorem clearLine_pc (c : OwnedCode) {pc : U64} (hpc : pc ≠ NO_PC) : ((c.clearLine pc).dispatch (dslot pc)).pc ≠ pc := by
  unfold clearLine
  dsimp only
  rw [if_pos rfl]
  exact fun h => hpc h.symm

theorem clearLineOf_pc (c : OwnedCode) {pc : U64} (hpc : pc ≠ NO_PC) : ((c.clearLineOf pc).dispatch (dslot pc)).pc ≠ pc := by
  unfold clearLineOf
  split
  · exact c.clearLine_pc hpc
  · assumption

/-- The other lines are left or emptied. -/
theorem clearLine_lineOk {pc' : U64} (hpc : pc' ≠ NO_PC) (h : c.LineOk pc') : (c.clearLine pc).LineOk pc' := by
  unfold LineOk clearLine at *
  dsimp only
  split
  · exact fun hn => absurd hn.symm hpc
  · exact h

theorem Exact.clearLine (h : Exact fresh f g c) (pc : U64) (hg : ∀ pc', g.line = some pc' → pc' = pc) :
    Exact fresh f { g with line := none } (c.clearLine pc) := { h with
  lines := fun pc' hpc _ => by
    by_cases he : pc' = pc
    · exact fun hl => absurd hl (he ▸ c.clearLine_pc (he ▸ hpc))
    · exact clearLine_lineOk hpc (h.lines pc' hpc fun hn => he (hg pc' hn)) }

theorem Exact.clearLineOf (h : Exact fresh f g c) (pc : U64) (hg : ∀ pc', g.line = some pc' → pc' = pc) :
    Exact fresh f { g with line := none } (c.clearLineOf pc) := by
  unfold OwnedCode.clearLineOf
  split
  · exact h.clearLine pc hg
  · rename_i hne
    exact { h with
      lines := fun pc' hpc _ => by
        by_cases he : pc' = pc
        · exact fun hl => absurd (he ▸ hl) hne
        · exact h.lines pc' hpc fun hn => he (hg pc' hn) }

theorem Gap.line_none (hg : g.line = none) (pc : U64) : { { g with line := some pc } with line := none } = g := by
  cases g
  cases hg
  rfl

theorem Gap.line_of_none (hg : g.line = none) (pc : U64) : ∀ pc', g.line = some pc' → pc' = pc := fun pc' h => by
  rw [hg] at h
  cases h

theorem removed_of_ne {m m' : HashMap U64 (Option JitBlock)} (h : m' = m.remove pc) {pc' : U64} (hne : pc' ≠ pc) : m' pc' = m pc' := by
  rw [h, HashMap.remove_of_ne hne]

/-- An entry goes whose line is empty. -/
theorem Exact.cacheRemove_cleared {evicted : Bool} (h : Exact fresh c.uses g c) (hg : g.line = none)
    (hl : pc ≠ NO_PC → (c.dispatch (dslot pc)).pc ≠ pc) (hr : c.cacheRemoveWithReason pc evicted = some c') :
    Drops fresh g c c' ∧ c'.cache = c.cache.remove pc := by
  obtain ⟨hd, hc, hdisp⟩ := h.cacheRemove (Gap.line_of_none hg pc) hr
  refine ⟨⟨{ hd.exact with lines := fun pc' hpc hn => ?_ }, hd.owners, hd.entries⟩, hc⟩
  by_cases he : pc' = pc
  · unfold LineOk
    rw [hdisp]
    exact fun hn => absurd hn (he ▸ hl (he ▸ hpc))
  · exact hd.exact.lines pc' hpc fun hn => he (Option.some.inj hn).symm

/-- An entry goes, and its line after it. -/
theorem Exact.cacheRemove_clearLine {evicted : Bool} (h : Exact fresh c.uses g c) (hg : g.line = none)
    (hr : c.cacheRemoveWithReason pc evicted = some c') : Drops fresh g c (c'.clearLine pc) ∧ (c'.clearLine pc).cache = c.cache.remove pc := by
  obtain ⟨hd, hc, -⟩ := h.cacheRemove (Gap.line_of_none hg pc) hr
  have he := hd.exact.clearLine pc fun pc' he => (Option.some.inj he).symm
  rw [Gap.line_none hg] at he
  exact ⟨⟨he, hd.owners.trans (hd.exact.ownersGo rfl rfl rfl rfl rfl rfl), hd.entries.trans (.of_same rfl rfl rfl)⟩, hc⟩

theorem Exact.dropCached (h : Exact fresh c.uses g c) (hg : g.line = none) (hr : c.dropCached pc = some c') :
    Drops fresh g c c' ∧ c'.cache = c.cache.remove pc := by
  obtain ⟨c1, h1, h2⟩ := Option.map_eq_some_iff.1 hr
  obtain ⟨hd, hc, -⟩ := h.cacheRemove (Gap.line_of_none hg pc) h1
  have he := hd.exact.clearLineOf pc fun pc' he => (Option.some.inj he).symm
  rw [Gap.line_none hg] at he
  rw [← h2, clearLineOf_eq]
  rw [clearLineOf_eq] at he
  exact ⟨⟨he, hd.owners.trans (hd.exact.ownersGo rfl rfl rfl rfl rfl rfl), hd.entries.trans (.of_same rfl rfl rfl)⟩, hc⟩

/-- What every step of a fold brings about, and dropping code keeps, holds in the end; other entries are left. -/
theorem Exact.foldlM_each {step : OwnedCode → U64 → Option OwnedCode} {Q : U64 → OwnedCode → Prop} (hQ : ∀ a c c', EntriesGo c c' → Q a c → Q a c')
    (hs : ∀ c a c', Exact fresh c.uses g c → step c a = some c' → Drops fresh g c c' ∧ Q a c' ∧ ∀ pc ≠ a, c'.cache pc = c.cache pc) (l : List U64) :
    ∀ {c c' : OwnedCode}, Exact fresh c.uses g c → l.foldlM step c = some c' →
      Drops fresh g c c' ∧ (∀ a ∈ l, Q a c') ∧ ∀ pc ∉ l, c'.cache pc = c.cache pc := by
  induction l with
  | nil =>
    intro c c' h hr
    cases Option.some.inj hr
    exact ⟨h.drops_refl, fun a ha => absurd ha List.not_mem_nil, fun _ _ => rfl⟩
  | cons a l ih =>
    intro c c' h hr
    rw [List.foldlM_cons] at hr
    obtain ⟨c1, h1, h2⟩ := Option.bind_eq_some_iff.1 hr
    obtain ⟨hd, ha, hk⟩ := hs c a c1 h h1
    obtain ⟨hd', hl, hk'⟩ := ih hd.exact h2
    refine ⟨hd.trans hd', fun a' ha' => (List.mem_cons.1 ha').elim (fun he => he ▸ hQ a c1 c' hd'.entries ha) (hl a'), fun pc hpc => ?_⟩
    rw [hk' pc fun hm => hpc (List.mem_cons_of_mem a hm), hk pc fun he => hpc (he ▸ List.mem_cons_self)]

theorem EntriesGo.gone (h : EntriesGo c c') (hn : c.cache pc = none) : c'.cache pc = none := by
  rcases h.cache pc with he | he
  · exact he
  · rw [he, hn]

/-- A cached entry keeps its slot. -/
theorem EntriesGo.slotAt (h : EntriesGo c c') (hs : c'.slotAt pc = some i) : c.slotAt pc = some i := by
  unfold OwnedCode.slotAt at hs ⊢
  rcases h.cache pc with he | he
  · rw [he] at hs
    cases hs
  · rwa [← he]

/-! ## Retiring an owner -/

theorem Exact.retireEntry (evicted : Bool) (h : Exact fresh c.uses g c) (hg : g.line = none) (hr : OwnedCode.retireEntry evicted c pc = some c') :
    Drops fresh g c c' ∧ c'.cache pc = none ∧ ∀ pc' ≠ pc, c'.cache pc' = c.cache pc' := by
  unfold OwnedCode.retireEntry at hr
  -- the counters of the interpreter have no part in the maps
  obtain ⟨c1, hc1, h1, hgo, hen, hcache⟩ : ∃ c1, c1 = (if evicted then c.coolEvictedEntry pc else c) ∧ Exact fresh c1.uses g c1 ∧ OwnersGo c c1 ∧
      EntriesGo c c1 ∧ c1.cache = c.cache := by
    refine ⟨_, rfl, ?_⟩
    cases evicted with
    | true => exact ⟨{ h with }, h.ownersGo rfl rfl rfl rfl rfl rfl, .of_same rfl rfl rfl, rfl⟩
    | false => exact ⟨h, h.ownersGo_refl, .refl c, rfl⟩
  rw [← hc1] at hr
  have h2 := h1.clearLineOf pc (Gap.line_of_none hg pc)
  have hg2 : ({ g with line := none } : Gap) = g := by
    cases g
    cases hg
    rfl
  rw [hg2] at h2
  have hl := fun hpc : pc ≠ NO_PC => c1.clearLineOf_pc hpc
  have hgo2 : OwnersGo c1 (c1.clearLineOf pc) := by
    rw [clearLineOf_eq]
    exact h1.ownersGo rfl rfl rfl rfl rfl rfl
  have hen2 : EntriesGo c1 (c1.clearLineOf pc) := by
    rw [clearLineOf_eq]
    exact .of_same rfl rfl rfl
  have huses : (c1.clearLineOf pc).uses = c1.uses := by
    rw [clearLineOf_eq]
    rfl
  obtain ⟨hd, hc⟩ := Exact.cacheRemove_cleared (by rw [huses]; exact h2) hg hl hr
  rw [clearLineOf_eq, hcache] at hc
  refine ⟨⟨hd.exact, (hgo.trans hgo2).trans hd.owners, (hen.trans hen2).trans hd.entries⟩, ?_, fun pc' hne => removed_of_ne hc hne⟩
  rw [hc, HashMap.remove_self]

/-- A slot of an owner whose code is gone. -/
theorem Exact.retireUnreferencedSlot (h : Exact fresh c.uses g c) (evicted : Bool) (i : ℤ) :
    Drops fresh g c (retireUnreferencedSlot evicted c i) ∧ (retireUnreferencedSlot evicted c i).cache = c.cache ∧
      ((∀ pc, c.slotAt pc ≠ some i) → (retireUnreferencedSlot evicted c i).slotOwner i = none) := by
  unfold OwnedCode.retireUnreferencedSlot
  split
  · rename_i hn
    have hz : c.uses i = 0 := by
      by_contra hne
      rw [h.refs, if_neg hne] at hn
      cases hn
    obtain ⟨hr, hgone⟩ := h.retireOwnedSlot (uses_eq_zero.1 hz) evicted
    have huses : (c.retireOwnedSlot i evicted).uses = c.uses := by
      unfold uses slotAt
      rw [hr.cache]
    exact ⟨⟨huses ▸ hr.exact, hr.owners, hr.entries⟩, hr.cache, fun _ => hgone⟩
  · rename_i hn
    refine ⟨h.drops_refl, rfl, fun hu => ?_⟩
    exact absurd (by rw [h.refs, if_pos (uses_eq_zero.2 hu)]) hn

theorem Exact.retireSlots (h : Exact fresh c.uses g c) (evicted : Bool) (l : List ℤ) :
    Drops fresh g c (l.foldl (OwnedCode.retireUnreferencedSlot evicted) c) ∧
      (l.foldl (OwnedCode.retireUnreferencedSlot evicted) c).cache = c.cache ∧
      ∀ i ∈ l, (∀ pc, c.slotAt pc ≠ some i) → (l.foldl (OwnedCode.retireUnreferencedSlot evicted) c).slotOwner i = none := by
  induction l generalizing c with
  | nil => exact ⟨h.drops_refl, rfl, fun i hi => absurd hi List.not_mem_nil⟩
  | cons j l ih =>
    obtain ⟨hd, hc, hj⟩ := h.retireUnreferencedSlot evicted j
    obtain ⟨hd', hc', hl⟩ := ih hd.exact
    refine ⟨hd.trans hd', hc'.trans hc, fun i hi hu => ?_⟩
    rcases List.mem_cons.1 hi with he | he
    · rw [← he] at hj
      by_contra hne
      obtain ⟨o, ho⟩ := Option.ne_none_iff_exists'.1 hne
      have := hd'.owners.owner i o ho
      rw [← he, hj hu] at this
      cases this
    · refine hl i he fun pc => ?_
      unfold slotAt
      rw [hc]
      exact hu pc

theorem Exact.retireUnreferencedSlots (h : Exact fresh c.uses g c) (o : JitOwnerId) : Drops fresh g c (c.retireUnreferencedSlots o) :=
  (h.retireSlots false _).1

/-- The maps of an owner without slots are empty. -/
theorem Exact.forgetOwner (h : Exact fresh f g c) (hn : c.ownerSlots o = none) : c.forgetOwner o = c := by
  have hslots : c.ownerSlots.remove o = c.ownerSlots := HashMap.remove_eq_self hn
  have hent : c.ownerEntries.remove o = c.ownerEntries := by
    refine HashMap.remove_eq_self (h.entries.eq_none.2 fun pc hR => ?_)
    obtain ⟨i, -, ho⟩ := ownerAt_eq_some.1 hR.1
    exact h.slots.eq_none.1 hn i ho
  have hrec : c.ownerRecency o = none := by
    by_contra hne
    have := (h.recency o).1 (Option.isSome_iff_ne_none.2 hne)
    rw [hn] at this
    cases this
  have hmod : c.pageModuleOwner o = none := by
    by_contra hne
    have := h.moduleSlots o (Option.isSome_iff_ne_none.2 hne)
    rw [hn] at this
    cases this
  unfold OwnedCode.forgetOwner
  rw [hslots, hent, HashMap.remove_eq_self hrec, HashMap.remove_eq_self hmod, hrec, hmod]

/-- The list of an owner's entries goes first. -/
theorem Exact.unlist (h : Exact fresh f g c) (o : JitOwnerId) (hgo : g.owner = none) :
    Exact fresh f { g with owner := some o } { c with ownerEntries := c.ownerEntries.remove o } := { h with
  entries := (h.entries.remove o).congr fun o' pc => by
    constructor
    · exact fun hR => ⟨hR.2.1, fun he => hR.1 (Option.some.inj he).symm⟩
    · exact fun hR => ⟨fun he => hR.2 (congrArg some he.symm), hR.1, fun hn => by rw [hgo] at hn; cases hn⟩ }

/-- **Retiring an owner**: its code goes, and all its slots with it. -/
theorem Exact.retireOwner {evicted : Bool} (h : Exact fresh c.uses g c) (hg : g.line = none) (hgo : g.owner = none)
    (hr : c.retireOwner o evicted = some c') :
    Drops fresh g c c' ∧ ¬c'.Alive o ∧ ∀ pc, c.ownerAt pc ≠ some o → c'.cache pc = c.cache pc := by
  unfold OwnedCode.retireOwner at hr
  dsimp only at hr
  obtain ⟨c2, h2, hr⟩ := Option.bind_eq_some_iff.1 hr
  have hr := Option.some.inj hr
  have h1 := h.unlist o hgo
  have hg1 : ({ g with owner := some o } : Gap).line = none := hg
  obtain ⟨hd, hgone, hkeep⟩ := h1.foldlM_each (Q := fun a c => c.cache a = none) (fun _ _ _ hgo => hgo.gone)
    (fun c a c' hc hs => Exact.retireEntry evicted hc hg1 hs) _ h2
  -- no code of the owner is left
  have hnone : ∀ pc, c2.ownerAt pc ≠ some o := by
    intro pc ha
    obtain ⟨i, hi, ho⟩ := ownerAt_eq_some.1 ha
    have ho' := hd.owners.owner i o ho
    have hat : c.ownerAt pc = some o := ownerAt_eq_some.2 ⟨i, hd.entries.slotAt hi, ho'⟩
    have hpc : pc ∈ (c.ownerEntries o).getD [] := h.entries.mem_getD.2 ⟨hat, fun hn => by rw [hgo] at hn; cases hn⟩
    unfold slotAt at hi
    rw [hgone pc hpc] at hi
    cases hi
  have h2' : Exact fresh c2.uses g c2 := { hd.exact with
    entries := hd.exact.entries.congr fun o' pc => by
      constructor
      · exact fun hR => ⟨hR.1, fun hn => by rw [hgo] at hn; cases hn⟩
      · exact fun hR => ⟨hR.1, fun he => hnone pc (Option.some.inj he ▸ hR.1)⟩ }
  obtain ⟨hd3, hc3, hslots⟩ := h2'.retireSlots evicted ((c.ownerSlots o).getD [])
  have howners : OwnersGo c c2 := by
    have h0 : OwnersGo c { c with ownerEntries := c.ownerEntries.remove o } := h.ownersGo rfl rfl rfl rfl rfl rfl
    exact h0.trans hd.owners
  have hentries : EntriesGo c c2 := by
    have h0 : EntriesGo c { c with ownerEntries := c.ownerEntries.remove o } := .of_same rfl rfl rfl
    exact h0.trans hd.entries
  have hdead : ((((c.ownerSlots o).getD []).foldl (OwnedCode.retireUnreferencedSlot evicted) c2).ownerSlots o) = none := by
    refine hd3.exact.slots.eq_none.2 fun i hi => ?_
    have hi2 := hd3.owners.owner i o hi
    have hmem : i ∈ (c.ownerSlots o).getD [] := h.slots.mem_getD.2 (howners.owner i o hi2)
    have := hslots i hmem fun pc hs => hnone pc (ownerAt_eq_some.2 ⟨i, hs, hi2⟩)
    rw [hi] at this
    cases this
  rw [← hr]
  have hforget := hd3.exact.forgetOwner hdead
  refine ⟨?_, ?_, fun pc hpc => ?_⟩
  · split
    · rw [hforget]
      exact ⟨hd3.exact, howners.trans hd3.owners, hentries.trans hd3.entries⟩
    · exact ⟨hd3.exact, howners.trans hd3.owners, hentries.trans hd3.entries⟩
  · unfold Alive
    split
    · rw [hforget, hdead]
      exact Bool.false_ne_true
    · rw [hdead]
      exact Bool.false_ne_true
  · rw [← hkeep pc fun hm => hpc (h.entries.mem_getD.1 hm).1, ← hc3]
    split
    · rw [hforget]
    · rfl

theorem Exact.evictColdOwner (h : Exact fresh c.uses g c) (hg : g.line = none) (hgo : g.owner = none) (hr : c.evictColdOwner = some c') :
    Drops fresh g c c' := by
  unfold OwnedCode.evictColdOwner at hr
  split at hr
  · exact Option.some.inj hr ▸ h.drops_refl
  · exact (h.retireOwner hg hgo hr).1

theorem Exact.retirePageModuleForSlot {b : Bool} (h : Exact fresh c.uses g c) (hg : g.line = none) (hgo : g.owner = none)
    (hr : c.retirePageModuleForSlot i = some (b, c')) : Drops fresh g c c' := by
  unfold OwnedCode.retirePageModuleForSlot at hr
  split at hr
  · cases hr
    exact h.drops_refl
  · split at hr
    · cases hr
      exact h.drops_refl
    · obtain ⟨c1, h1, h2⟩ := Option.map_eq_some_iff.1 hr
      cases h2
      exact (h.retireOwner hg hgo h1).1

/-! ## Dispatch -/

theorem Exact.dropUnmapped (h : Exact fresh c.uses g c) (hg : g.line = none) (hgo : g.owner = none) (hr : c.dropUnmapped pc i = some c') :
    Drops fresh g c c' := by
  obtain ⟨⟨b, c1⟩, h1, hr⟩ := Option.bind_eq_some_iff.1 hr
  have hd := h.retirePageModuleForSlot hg hgo h1
  dsimp only at hr
  split at hr
  · exact Option.some.inj hr ▸ hd
  · obtain ⟨c2, h2, hr⟩ := Option.map_eq_some_iff.1 hr
    exact hr ▸ hd.trans (hd.exact.cacheRemove_clearLine hg h2).1

theorem Exact.resolve {mapped : Bool} {gen : U32} (h : Exact fresh c.uses g c) (hg : g.line = none) (hgo : g.owner = none)
    (hr : c.resolve pc mapped gen = some c') : Drops fresh g c c' := by
  unfold OwnedCode.resolve at hr
  cases hb : (c.cache pc).join with
  | none =>
    rw [hb] at hr
    exact Option.some.inj hr ▸ h.drops_refl
  | some block =>
    rw [hb] at hr
    dsimp only at hr
    split at hr
    · rw [← Option.some.inj hr]
      refine ⟨{ h with lines := fun pc' hpc hn => ?_ }, h.ownersGo rfl rfl rfl rfl rfl rfl, .of_same rfl rfl rfl⟩
      have hold := h.lines pc' hpc hn
      unfold LineOk at hold ⊢
      dsimp only
      split
      · exact fun he => ⟨block, (show pc = pc' from he) ▸ hb, rfl⟩
      · exact hold
    · exact h.dropUnmapped hg hgo hr

theorem Exact.extendInline (h : Exact fresh c.uses g c) (hg : g.line = none) (hr : c.extendInline pc = some c') : Drops fresh g c c' := by
  obtain ⟨c1, h1, hr⟩ := Option.map_eq_some_iff.1 hr
  exact hr ▸ (h.cacheRemove_clearLine hg h1).1

theorem Exact.dropBailing (h : Exact fresh c.uses g c) (hg : g.line = none) (hgo : g.owner = none) (hr : c.dropBailing pc = some c') :
    Drops fresh g c c' := by
  unfold OwnedCode.dropBailing at hr
  split at hr
  · exact (h.dropCached hg hr).1
  · obtain ⟨⟨b, c1⟩, h1, hr⟩ := Option.bind_eq_some_iff.1 hr
    have hd := h.retirePageModuleForSlot hg hgo h1
    dsimp only at hr
    split at hr
    · exact Option.some.inj hr ▸ hd
    · exact hd.trans (hd.exact.dropCached hg hr).1

/-! ## Demotion -/

theorem Exact.demoteEntry {e : U64} (h : Exact fresh c.uses g c) (hg : g.line = none) (hr : demoteEntry i c e = some c') :
    Drops fresh g c c' ∧ c'.slotAt e ≠ some i ∧ ∀ pc ≠ e, c'.cache pc = c.cache pc := by
  unfold OwnedCode.demoteEntry at hr
  split at hr
  · obtain ⟨hd, hc⟩ := h.dropCached hg hr
    refine ⟨hd, fun hs => ?_, fun pc hne => removed_of_ne hc hne⟩
    rw [slotAt_removed hc, if_pos rfl] at hs
    cases hs
  · rename_i hn
    rw [← Option.some.inj hr]
    refine ⟨h.drops_refl, fun hs => hn ?_, fun _ _ => rfl⟩
    rw [slotAt_join] at hs
    obtain ⟨b, hb, hi, -⟩ := entrySlot_eq_some.1 hs
    rw [hb]
    exact decide_eq_true hi

/-- The exit profile of a slot goes. -/
theorem Exact.dropExits (h : Exact fresh f g c) (i : ℤ) : Exact fresh f g { c with regionExits := c.regionExits.remove i } := { h with
  exits := fun j hj => by
    change ((c.regionExits.remove i) j).isSome at hj
    obtain ⟨x, hx⟩ := Option.isSome_iff_exists.1 hj
    exact h.exits j (by rw [(HashMap.remove_eq_some.1 hx).2]; rfl)
  exitPcs := fun pc j x hs hx => h.exitPcs pc j x hs (HashMap.remove_eq_some.1 hx).2 }

/-- **Demoting a region**: none of its entries is left, so its records can go. -/
theorem Exact.demoteEntries {r : RegionExits} (h : Exact fresh c.uses g c) (hg : g.line = none) (hx : c.regionExits i = some r)
    (hr : c.demoteEntries i r.entries = some c') : Drops fresh g c c' := by
  obtain ⟨c2, h2, hr⟩ := Option.map_eq_some_iff.1 hr
  have h1 := h.dropExits i
  have hgo1 : OwnersGo c { c with regionExits := c.regionExits.remove i } := h.ownersGo rfl rfl rfl rfl rfl rfl
  have hen1 : EntriesGo c { c with regionExits := c.regionExits.remove i } :=
    { EntriesGo.refl c with
      exits := fun j => by
        change c.regionExits.remove i j = none ∨ c.regionExits.remove i j = c.regionExits j
        rw [HashMap.remove_apply]
        split
        · exact .inl rfl
        · exact .inr rfl }
  obtain ⟨hd, hgone, -⟩ := h1.foldlM_each (Q := fun a c => c.slotAt a ≠ some i) (fun a _ _ hgo hn hs => hn (hgo.slotAt hs))
    (fun c a c' hc hs => hc.demoteEntry hg hs) _ h2
  -- the slot has lost all its entries
  have hnone : ∀ pc, c2.slotAt pc ≠ some i := fun pc hs => hgone pc (h.exitPcs pc i r (hd.entries.slotAt hs) hx) hs
  have hi : 0 ≤ i := h.nonneg i (h.exits i (by rw [hx]; rfl))
  have hcov : ∀ pc p, Covers { c2 with regions := c2.regions.remove i, extQueue := c2.extQueue.filter (· ≠ i) } pc p ↔ c2.Covers pc p :=
    covers_congr rfl fun pc b hb => HashMap.remove_of_ne fun he => hnone pc (he ▸ slotAt_of_block hb (he ▸ hi))
  rw [← hr]
  refine ⟨{ hd.exact with queue := fun j hj => ?_, pages := fun hf => ?_, regions := fun hf j hj => ?_ },
    (hgo1.trans hd.owners).trans (hd.exact.ownersGo rfl rfl rfl rfl rfl rfl),
    (hen1.trans hd.entries).trans ⟨fun _ => .inr rfl, fun pc p => (hcov pc p).1, fun _ => .inr rfl⟩⟩
  · exact hd.exact.queue j (List.mem_of_mem_filter hj)
  · exact (hd.exact.pages hf).congr fun p pc => and_congr_left fun _ => (hcov pc p).symm
  · change ((c2.regions.remove i) j).isSome at hj
    obtain ⟨x, hx⟩ := Option.isSome_iff_exists.1 hj
    exact hd.exact.regions hf j (by rw [(HashMap.remove_eq_some.1 hx).2]; rfl)

/-! ## Dirty pages -/

/-- **A page's code goes**: the list of its pcs is complete. -/
theorem Exact.drainCode {page : U64} (h : Exact fresh c.uses g c) (hg : g.line = none) (hp : g.page = none)
    (hr : ((c.pageBlocks page).getD []).foldlM OwnedCode.dropCached { c with pageBlocks := c.pageBlocks.remove page } = some c') :
    Drops fresh g c c' ∧ (fresh → ∀ pc, ¬c'.Covers pc page) := by
  have hlisted : ∀ p : U64, g.page ≠ some p := fun p hn => by
    rw [hp] at hn
    cases hn
  have h1 : Exact fresh c.uses { g with page := some page } { c with pageBlocks := c.pageBlocks.remove page } := { h with
    pages := fun hf => ((h.pages hf).remove page).congr fun p pc => by
      constructor
      · exact fun hR => ⟨hR.2.1, fun he => hR.1 (Option.some.inj he).symm⟩
      · exact fun hR => ⟨fun he => hR.2 (congrArg some he.symm), hR.1, hlisted p⟩ }
  have hg1 : ({ g with page := some page } : Gap).line = none := hg
  have hgo1 : OwnersGo c { c with pageBlocks := c.pageBlocks.remove page } := h.ownersGo rfl rfl rfl rfl rfl rfl
  have hen1 : EntriesGo c { c with pageBlocks := c.pageBlocks.remove page } := .of_same rfl rfl rfl
  obtain ⟨hd, hgone, -⟩ := h1.foldlM_each (Q := fun a c => c.cache a = none) (fun _ _ _ hgo => hgo.gone) (fun c a c' hc hs => by
    obtain ⟨hd, hcache⟩ := hc.dropCached hg1 hs
    exact ⟨hd, by rw [hcache, HashMap.remove_self], fun pc hne => removed_of_ne hcache hne⟩) _ hr
  have hnone : fresh → ∀ pc, ¬c'.Covers pc page := by
    intro hf pc hc
    have hmem : pc ∈ (c.pageBlocks page).getD [] := (h.pages hf).mem_getD.2 ⟨hd.entries.covers pc page hc, hlisted page⟩
    obtain ⟨b, hb, -⟩ := hc
    rw [hgone pc hmem] at hb
    cases hb
  refine ⟨⟨{ hd.exact with pages := fun hf => (hd.exact.pages hf).congr fun p pc => ?_ }, hgo1.trans hd.owners, hen1.trans hd.entries⟩, hnone⟩
  constructor
  · exact fun hR => ⟨hR.1, hlisted p⟩
  · exact fun hR => ⟨hR.1, fun he => hnone hf pc (Option.some.inj he ▸ hR.1)⟩

theorem Exact.retireOwners (hg : g.line = none) (hgo : g.owner = none) (owners : List JitOwnerId) :
    ∀ {c c' : OwnedCode}, Exact fresh c.uses g c → owners.foldlM (fun c o => OwnedCode.retireOwner c o false) c = some c' →
      Drops fresh g c c' ∧ ∀ o ∈ owners, ¬c'.Alive o := by
  induction owners with
  | nil => exact fun h hr => ⟨Option.some.inj hr ▸ h.drops_refl, fun o ho => absurd ho List.not_mem_nil⟩
  | cons o l ih =>
    intro c c' h hr
    rw [List.foldlM_cons] at hr
    obtain ⟨c1, h1, h2⟩ := Option.bind_eq_some_iff.1 hr
    obtain ⟨hd, ho, -⟩ := h.retireOwner hg hgo h1
    obtain ⟨hd', hl⟩ := ih hd.exact h2
    exact ⟨hd.trans hd', fun o' ho' => (List.mem_cons.1 ho').elim (fun he ha => ho (he ▸ hd'.owners.alive o' ha)) (hl o')⟩

/-- Owners go and none comes; a page loses its state or its live code only. -/
structure PagesGo (c c' : OwnedCode) : Prop where
  alive : ∀ o, c'.Alive o → c.Alive o
  moduleOwner : ∀ o, c'.pageModuleOwner o = if c'.Alive o then c.pageModuleOwner o else none
  modules : ∀ key, c'.pageModules key = none ∨ c'.pageModules key = (c.pageModules key).bind c'.survives
  tally : ∀ i, c'.tally i = c.tally i

theorem OwnersGo.pages (h : OwnersGo c c') : PagesGo c c' := ⟨h.alive, h.moduleOwner, fun key => .inr (h.modules key), h.tally⟩

theorem PagesGo.trans (h : PagesGo c c') (h' : PagesGo c' c'') : PagesGo c c'' where
  alive o ha := h.alive o (h'.alive o ha)
  moduleOwner o := by
    rw [h'.moduleOwner]
    split
    · rename_i ha
      rw [h.moduleOwner, if_pos (h'.alive o ha)]
    · rfl
  modules key := by
    rcases h'.modules key with he | he
    · exact .inl he
    · rcases h.modules key with hn | hn
      · rw [hn] at he
        exact .inl he
      · refine .inr ?_
        rw [he, hn, Option.bind_assoc]
        cases c.pageModules key with
        | none => rfl
        | some s => exact survives_trans h'.alive s
  tally i := (h'.tally i).trans (h.tally i)

end OwnedCode

namespace JitState

open OwnedCode

variable {fresh : Prop} {g : Gap} {j j' : JitState}

theorem removeConfirmedCoverage_code (blocks : List PendingBlock) (j : JitState) :
    (blocks.foldl removeConfirmedCoverage j).toOwnedCode = j.toOwnedCode := by
  induction blocks generalizing j with
  | nil => rfl
  | cons b l ih => exact ih _

theorem dropStaged_code (j : JitState) (page : U64) : (j.dropStaged page).toOwnedCode = j.toOwnedCode :=
  removeConfirmedCoverage_code _ j

theorem drainPage_drops {s s' : Drain} {page : U64} (h : Exact fresh s.jit.uses .closed s.jit.toOwnedCode)
    (hd : drainPage s page = some s') : Drops fresh .closed s.jit.toOwnedCode s'.jit.toOwnedCode := by
  obtain ⟨c, hc, hs⟩ := Option.map_eq_some_iff.1 hd
  rw [dropStaged_code] at hc
  have := (h.drainCode rfl rfl hc).1
  rw [← hs]
  exact this

theorem drainPages_drops {dirty : List U64} : ∀ {s s' : Drain}, Exact fresh s.jit.uses .closed s.jit.toOwnedCode →
    dirty.foldlM drainPage s = some s' → Drops fresh .closed s.jit.toOwnedCode s'.jit.toOwnedCode := by
  induction dirty with
  | nil => exact fun h hd => Option.some.inj hd ▸ h.drops_refl
  | cons p l ih =>
    intro s s' h hd
    rw [List.foldlM_cons] at hd
    obtain ⟨s1, h1, h2⟩ := Option.bind_eq_some_iff.1 hd
    have hd1 := drainPage_drops h h1
    exact hd1.trans (ih hd1.exact h2)

/-- The pages whose live code was retired are forgotten. -/
theorem Exact.forgetPages {c : OwnedCode} {f : ℤ → ℕ} {p : PageKey → PageModuleState → Bool} (h : Exact fresh f g c)
    (hp : ∀ key s, c.pageModules key = some s → p key s = false → s.activeOwner = none) :
    Exact fresh f g { c with pageModules := c.pageModules.retain p } := { h with
  modules := fun o key => by
    have hsame : ((c.pageModules.retain p) key).bind PageModuleState.activeOwner = (c.pageModules key).bind PageModuleState.activeOwner := by
      unfold HashMap.retain
      cases hs : c.pageModules key with
      | none => rfl
      | some s =>
        rw [Option.filter_some]
        split
        · rfl
        · rename_i hn
          exact (hp key s hs (Bool.eq_false_of_not_eq_true hn)).symm
    exact (h.modules o key).trans (by rw [hsame]) }

theorem invalidate_exact {exact : PageKey → Bool} {broad : U64 → Bool} {owners : List JitOwnerId} (h : Exact fresh j.uses .closed j.toOwnedCode)
    (ho : j.ActiveOwners exact owners) (hr : j.invalidateSuperblockState exact broad owners = some j') :
    Exact fresh j'.uses .closed j'.toOwnedCode ∧ PagesGo j.toOwnedCode j'.toOwnedCode := by
  obtain ⟨c, hc, hr⟩ := Option.map_eq_some_iff.1 hr
  obtain ⟨hd, hdead⟩ := Exact.retireOwners rfl rfl owners h hc
  rw [← hr]
  constructor
  · refine JitState.Exact.forgetPages hd.exact fun key s hs hn => ?_
    by_contra ha
    obtain ⟨o, ha⟩ := Option.ne_none_iff_exists'.1 ha
    have hact : (c.pageModules key).bind PageModuleState.activeOwner = some o := by
      rw [hs]
      exact ha
    -- a live owner of a dirty page was live before, and was retired
    obtain ⟨halive, hmo⟩ := hd.exact.active key hact
    rw [hd.owners.moduleOwner, if_pos halive] at hmo
    have hold := (h.modules o key).1 ⟨hmo, fun hn => nomatch hn⟩
    exact hdead o ((ho o).2 ⟨key, by simpa using hn, hold⟩) halive
  · refine ⟨hd.owners.alive, hd.owners.moduleOwner, fun key => ?_, hd.owners.tally⟩
    change (c.pageModules.retain fun k _ => !exact k) key = none ∨ (c.pageModules.retain fun k _ => !exact k) key = _
    rw [HashMap.retain_keys c.pageModules key fun k => !exact k]
    split
    · exact .inr (hd.owners.modules key)
    · exact .inl rfl

end JitState
end Lish
