import Lish.Jit.Landings
/-!
# ExactLandings — what lands keeps the maps exact

The landings of a block, of a batch and of a region, and the page states before and after.
-/
namespace Lish
namespace JitState

open OwnedCode

variable {fresh : Prop} {g : Gap} {j j' : JitState} {c c' : OwnedCode} {f : ℤ → ℕ} {o : JitOwnerId} {i : ℤ} {pc : U64}

/-! ## Page states -/

/-- A page whose live code stays the same. -/
theorem Exact.setPage (h : Exact fresh f g c) {key : PageKey} {s : Option PageModuleState}
    (hs : s.bind PageModuleState.activeOwner = (c.pageModules key).bind PageModuleState.activeOwner) {m : HashMap PageKey PageModuleState}
    (hm : ∀ k, m k = if k = key then s else c.pageModules k) : Exact fresh f g { c with pageModules := m } := { h with
  modules := fun o k => by
    dsimp only
    rw [hm]
    split
    · rename_i hk
      rw [hs, hk]
      exact h.modules o key
    · exact h.modules o k }

/-- A compile that failed or was cancelled gives the page back to the code that is live. -/
theorem Exact.finishPage (h : Exact fresh j.uses g j.toOwnedCode) (ticket : U64) (batch : PendingBatch) {finish : PageModuleFinish}
    (hf : ∀ o, finish ≠ .landed o) : Exact fresh j.uses g (j.finishPendingPageModule ticket batch finish).2.toOwnedCode := by
  unfold finishPendingPageModule
  cases batch.pageModule with
  | none => exact h
  | some key =>
    cases hk : j.pageModules key with
    | none =>
      dsimp only
      rw [hk]
      exact h
    | some s =>
      cases s with
      | attempted source =>
        dsimp only
        rw [hk]
        exact h
      | live code =>
        dsimp only
        rw [hk]
        exact h
      | pending source current prior =>
        dsimp only
        rw [hk]
        dsimp only
        split
        · exact h
        · have hprior : ∀ (s : Option PageModuleState) (m : HashMap PageKey PageModuleState),
              s.bind PageModuleState.activeOwner = prior.map LivePageModule.owner → (∀ k, m k = if k = key then s else j.pageModules k) →
              Exact fresh j.uses g { j.toOwnedCode with pageModules := m } := fun s m hs hm => Exact.setPage h (by rw [hk]; exact hs) hm
          cases finish with
          | landed o => exact absurd rfl (hf o)
          | failed =>
            cases prior with
            | none => exact hprior (some (.attempted source)) _ rfl fun k => rfl
            | some code => exact hprior (some (.live code)) _ rfl fun k => rfl
          | cancelled =>
            cases prior with
            | none => exact hprior none _ rfl fun k => rfl
            | some code => exact hprior (some (.live code)) _ rfl fun k => rfl

/-- **A page module takes its page over**: the code that was live there has still to be retired. -/
theorem Exact.landPage (h : Exact fresh f g c) (hg : g.prior = none) {key : PageKey} {source : PageModuleSource} {ticket : U64}
    {prior : Option LivePageModule} (hk : c.pageModules key = some (.pending source ticket prior)) (ha : c.Alive o)
    (hn : c.pageModuleOwner o = none) (entries : List U64) :
    Exact fresh f { g with prior := prior.map LivePageModule.owner } { c with
      pageModules := c.pageModules.insert key (.live ⟨source, o, entries⟩)
      pageModuleOwner := c.pageModuleOwner.insert o key } := by
  have hact : ∀ {o' k}, c.pageModuleOwner o' = some k ↔ (c.pageModules k).bind PageModuleState.activeOwner = some o' := fun {o' k} => by
    rw [← h.modules o' k, hg]
    exact ⟨fun hm => ⟨hm, fun hn => nomatch hn⟩, And.left⟩
  have hkey : (c.pageModules key).bind PageModuleState.activeOwner = prior.map LivePageModule.owner := by
    rw [hk]
    rfl
  refine { h with modules := fun o' k => ?_, moduleSlots := fun o' ho' => ?_ }
  · dsimp only
    rw [HashMap.insert_apply, HashMap.insert_apply]
    by_cases ho : o' = o
    · rw [if_pos ho]
      have hprior : prior.map LivePageModule.owner ≠ some o' := fun hp => by
        have := hact.2 (hkey.trans hp)
        rw [ho, hn] at this
        cases this
      split
      · rename_i hkk
        exact ⟨fun _ => congrArg some ho.symm, fun _ => ⟨congrArg some hkk.symm, hprior⟩⟩
      · rename_i hkk
        refine ⟨fun hm => absurd (Option.some.inj hm.1).symm hkk, fun hm => ?_⟩
        have := hact.2 hm
        rw [ho, hn] at this
        cases this
    · rw [if_neg ho]
      split
      · rename_i hkk
        refine ⟨fun hm => absurd ?_ hm.2, fun hm => absurd (Option.some.inj hm).symm ho⟩
        rw [← hkey, ← hkk]
        exact hact.1 hm.1
      · rename_i hkk
        refine ⟨fun hm => hact.1 hm.1, fun hm => ⟨hact.2 hm, fun hp => ?_⟩⟩
        -- an owner has one page
        have := hact.2 (hkey.trans hp)
        rw [hact.2 hm] at this
        exact hkk (Option.some.inj this)
  · change (c.pageModuleOwner.insert o key o').isSome at ho'
    rw [HashMap.insert_apply] at ho'
    split at ho'
    · rename_i he
      exact he ▸ ha
    · exact h.moduleSlots o' ho'

/-- The replaced module is gone. -/
theorem Exact.priorGone (h : Exact fresh f g c) (hd : ∀ o, g.prior = some o → ¬c.Alive o) : Exact fresh f { g with prior := none } c := { h with
  modules := fun o k => by
    rw [← h.modules o k]
    constructor
    · refine fun hm => ⟨hm.1, fun hp => hd o hp (h.moduleSlots o ?_)⟩
      rw [hm.1]
      rfl
    · exact fun hm => ⟨hm.1, fun hn => nomatch hn⟩ }

/-! ## Slots that no entry took -/

theorem Exact.landed (h : Exact fresh c.uses g c) (hg : g.landing = some o) :
    Drops fresh { g with landing := none } c (c.retireUnreferencedSlots o) := by
  obtain ⟨hd, hc, hslots⟩ := h.retireSlots false ((c.ownerSlots o).getD [])
  refine ⟨{ hd.exact with settled := fun i o' hi _ => ?_ }, hd.owners, hd.entries⟩
  by_cases ho : o' = o
  · rw [ho] at hi
    refine Nat.pos_of_ne_zero fun hz => ?_
    have huses : c.uses i = 0 := by
      rw [← uses_congr hc]
      exact hz
    have := hslots i (h.slots.mem_getD.2 (hd.owners.owner i o hi)) (uses_eq_zero.1 huses)
    unfold OwnedCode.retireUnreferencedSlots at hi
    rw [hi] at this
    cases this
  · exact hd.exact.settled i o' hi fun hn => ho (by rw [hg] at hn; exact (Option.some.inj hn).symm)

/-! ## Landings -/

/-- What a landing leaves: no owner comes, and the gap is as it was. -/
structure Lands (fresh : Prop) (g : Gap) (c c' : OwnedCode) : Prop where
  exact : Exact fresh c'.uses g c'
  owners : OwnersGo c c'
  exits : ∀ i, c'.regionExits i = none ∨ c'.regionExits i = c.regionExits i

theorem Lands.trans (h : Lands fresh g c c') {c'' : OwnedCode} (h' : Lands fresh g c' c'') : Lands fresh g c c'' where
  exact := h'.exact
  owners := h.owners.trans h'.owners
  exits i := by
    rcases h'.exits i with he | he
    · exact .inl he
    · rw [he]
      exact h.exits i

theorem Exact.lands_refl (h : Exact fresh c.uses g c) : Lands fresh g c c := ⟨h, h.ownersGo_refl, fun _ => .inr rfl⟩

/-- The gap of a landing: its slots are not all in use, and a replaced module may be there. -/
def Gap.Landing (g : Gap) : Prop := g.owner = none ∧ g.page = none ∧ g.line = none

/-- An entry of a landing. -/
theorem Exact.install {block : JitBlock} (h : Exact fresh j.uses g j.toOwnedCode) (hg : Gap.Landing g)
    (hx : ∀ r, 0 ≤ block.idx → j.regionExits block.idx = some r → pc ∈ r.entries) (hr : j.install pc block = some j') :
    Lands fresh g j.toOwnedCode j'.toOwnedCode ∧ j'.cache = j.cache.insert pc (some block) := by
  obtain ⟨c, hc, hr⟩ := Option.map_eq_some_iff.1 hr
  have hi := h.cacheInsert (Gap.line_of_none hg.2.2 pc) hg.1 hg.2.1 (fun i r hs hr => by
    obtain ⟨b, hb, rfl, h0⟩ := entrySlot_eq_some.1 hs
    cases hb
    exact hx r h0 hr) hc
  have he := hi.exact.clearLineOf pc fun pc' he => (Option.some.inj he).symm
  rw [Gap.line_none hg.2.2] at he
  rw [clearLineOf_eq] at he
  rw [← hr]
  dsimp only
  rw [clearLineOf_eq]
  exact ⟨⟨he, hi.owners.trans (hi.exact.ownersGo rfl rfl rfl rfl rfl rfl), hi.exits⟩, hi.cache⟩

/-- The pages of a slot that no entry runs in. -/
theorem Exact.recordPages {pages : List (U64 × U64)} (h : Exact fresh j.uses g j.toOwnedCode) (hs : fresh → (j.slotOwner i).isSome)
    (hu : fresh → 1 < pages.length → ∀ pc, j.slotAt pc ≠ some i) :
    Exact fresh j.uses g (j.recordPages i pages).toOwnedCode := by
  unfold JitState.recordPages
  split
  · rename_i hlen
    have hcov : fresh → ∀ pc p, Covers { j.toOwnedCode with regions := j.regions.insert i pages } pc p ↔ j.Covers pc p := by
      refine fun hf => covers_congr rfl fun pc b hb => HashMap.insert_of_ne fun he => ?_
      exact hu hf hlen pc (he ▸ slotAt_of_block hb (he ▸ h.nonneg i (hs hf)))
    exact { h with
      pages := fun hf => (h.pages hf).congr fun p pc => and_congr_left fun _ => (hcov hf pc p).symm
      regions := fun hf k hk => by
        change (j.regions.insert i pages k).isSome at hk
        rw [HashMap.insert_apply] at hk
        split at hk
        · rename_i he
          exact he ▸ hs hf
        · exact h.regions hf k hk }
  · exact h

/-- The code of a page list that is recorded is as it was otherwise. -/
theorem recordPages_same (j : JitState) (i : ℤ) (pages : List (U64 × U64)) : (j.recordPages i pages).cache = j.cache ∧
    (j.recordPages i pages).slotOwner = j.slotOwner ∧ (j.recordPages i pages).regionExits = j.regionExits := by
  unfold JitState.recordPages
  split <;> exact ⟨rfl, rfl, rfl⟩

theorem recordPages_ownersGo (h : Exact fresh f g j.toOwnedCode) (i : ℤ) (pages : List (U64 × U64)) :
    OwnersGo j.toOwnedCode (j.recordPages i pages).toOwnedCode := by
  unfold JitState.recordPages
  split
  · exact h.ownersGo rfl rfl rfl rfl rfl rfl
  · exact h.ownersGo_refl

theorem addSeeds_code (s : JitSettings) (j : JitState) (p : PendingBlock) : (j.addSeeds s p).toOwnedCode = j.toOwnedCode := by
  unfold addSeeds
  split <;> rfl

/-- **A block lands** in a slot that has no pages recorded, or in one that no entry runs in. -/
theorem Exact.landBlock {s : JitSettings} {p : PendingBlock} (h : Exact fresh j.uses g j.toOwnedCode) (hg : Gap.Landing g)
    (hs : fresh → (j.slotOwner i).isSome) (hu : fresh → 1 < p.pages.length → ∀ pc, j.slotAt pc ≠ some i)
    (hx : 0 ≤ i → j.regionExits i = none) (hr : j.landBlock s i p = some j') :
    Lands fresh g j.toOwnedCode j'.toOwnedCode ∧
      ∃ stamp, j'.cache = j.cache.insert p.pc (some { p.block with idx := i, lastUsed := stamp }) := by
  have h1 : Exact fresh j.stamp.uses g j.stamp.toOwnedCode := { h with }
  have h2 : Exact fresh j.stamp.uses g (j.stamp.recordPages i p.pages).toOwnedCode := Exact.recordPages h1 hs hu
  obtain ⟨hcache, -, hexits⟩ := recordPages_same j.stamp i p.pages
  obtain ⟨j2, hj2⟩ : ∃ j2, j2 = (j.stamp.recordPages i p.pages).addSeeds s p := ⟨_, rfl⟩
  have hcode : j2.toOwnedCode = (j.stamp.recordPages i p.pages).toOwnedCode := by rw [hj2, addSeeds_code]
  have h3 : Exact fresh j2.uses g j2.toOwnedCode := by
    rw [hcode, show (j.stamp.recordPages i p.pages).uses = j.stamp.uses from uses_congr hcache]
    exact h2
  have hgo : OwnersGo j.toOwnedCode j2.toOwnedCode := by
    have hgo1 : OwnersGo j.toOwnedCode j.stamp.toOwnedCode := h.ownersGo rfl rfl rfl rfl rfl rfl
    rw [hcode]
    exact hgo1.trans (recordPages_ownersGo h1 i p.pages)
  unfold JitState.landBlock at hr
  rw [← hj2] at hr
  obtain ⟨hl, hc⟩ := Exact.install h3 hg (fun r h0 hr => by
    have := hx h0
    rw [hcode] at hr
    change (j.stamp.recordPages i p.pages).regionExits i = some r at hr
    rw [hexits] at hr
    exact absurd (this.symm.trans hr) (fun hn => nomatch hn)) hr
  refine ⟨⟨hl.exact, hgo.trans hl.owners, fun k => ?_⟩, j.stamp.useStamp, ?_⟩
  · rcases hl.exits k with he | he
    · exact .inl he
    · rw [he, hcode]
      exact .inr (congrFun hexits k)
  · rw [hc, hcode]
    exact congrArg (fun m => HashMap.insert m p.pc _) hcache

/-- Code can be installed only in a slot with an owner. -/
theorem landBlock_owned {s : JitSettings} {p : PendingBlock} (hi : 0 ≤ i) (hr : j.landBlock s i p = some j') : (j.slotOwner i).isSome := by
  obtain ⟨c, hc, -⟩ := Option.map_eq_some_iff.1 hr
  obtain ⟨ef, oldOwner, newOwner, -, hnew, -⟩ := cacheInsert_eq hc
  have := ((ownerOf_eq hnew).2 i (by rw [entrySlot_eq_some]; exact ⟨_, rfl, rfl, hi⟩)).2
  rw [addSeeds_code, (recordPages_same j.stamp i p.pages).2.1] at this
  exact this

theorem slotAt_landed {block : JitBlock} (hc : c'.cache = c.cache.insert pc (some block)) (hi : block.idx = i) (pc' : U64) :
    c'.slotAt pc' = if pc' = pc then (if 0 ≤ i then some i else none) else c.slotAt pc' := by
  rw [slotAt_inserted hc, ← hi]
  rfl

theorem Exact.completeBlockLanding {M : Type} [FullSystemJitMachine M] {s : JitSettings} {m m' : M} {p : PendingBlock}
    (h : Exact fresh j.uses g j.toOwnedCode) (hg : Gap.Landing g) (h0 : fresh → 0 ≤ i) (hu : fresh → ∀ pc, j.slotAt pc ≠ some i)
    (hx : 0 ≤ i → j.regionExits i = none) (hr : j.completeBlockLanding s m i p = some (m', j')) : Lands fresh g j.toOwnedCode j'.toOwnedCode := by
  unfold JitState.completeBlockLanding at hr
  split at hr
  · cases hr
    exact Exact.lands_refl h
  · split at hr
    · cases hr
      exact Exact.lands_refl h
    · obtain ⟨j1, h1, hr⟩ := Option.map_eq_some_iff.1 hr
      have hl := (Exact.landBlock h hg (fun hf => landBlock_owned (h0 hf) h1) (fun hf _ => hu hf) hx h1).1
      cases hr
      unfold noteMissed
      dsimp only
      split <;> exact hl

/-- **The members of a batch land** one by one. -/
theorem Exact.landMembers {s : JitSettings} {pageModule : Bool} {base : ℤ} (hg : Gap.Landing g) (l : List PendingBlock) :
    ∀ (k : ℕ) {j j' : JitState}, Exact fresh j.uses g j.toOwnedCode → (pageModule = true → ∀ p ∈ l, p.pages.length ≤ 1) →
      (fresh → ∀ a, k ≤ a → a < k + l.length → 0 ≤ memberSlot pageModule base a) →
      (pageModule = false → fresh → ∀ a b, a < b → b < k + l.length → memberSlot pageModule base a ≠ memberSlot pageModule base b) →
      (pageModule = false → fresh → ∀ a, k ≤ a → a < k + l.length → ∀ pc, j.slotAt pc ≠ some (memberSlot pageModule base a)) →
      (∀ a, k ≤ a → a < k + l.length → 0 ≤ memberSlot pageModule base a → j.regionExits (memberSlot pageModule base a) = none) →
      (l.zipIdx k).foldlM (fun j m => j.landMember s pageModule (memberSlot pageModule base m.2) m.1) j = some j' →
      Lands fresh g j.toOwnedCode j'.toOwnedCode ∧ (pageModule = true → 0 ≤ base → l ≠ [] → ∃ pc, j'.slotAt pc = some base) := by
  induction l with
  | nil =>
    intro k j j' h _ _ _ _ _ hr
    exact ⟨Option.some.inj hr ▸ Exact.lands_refl h, fun _ _ hn => absurd rfl hn⟩
  | cons p l ih =>
    intro k j j' h hone h0 hdist hfree hx hr
    rw [List.zipIdx_cons, List.foldlM_cons] at hr
    obtain ⟨j1, h1, h2⟩ := Option.bind_eq_some_iff.1 hr
    have hk : k < k + (p :: l).length := by simp
    have hlen : k + 1 + l.length = k + (p :: l).length := by simp; omega
    -- the first member lands or not
    obtain ⟨hl, hslot⟩ : Lands fresh g j.toOwnedCode j1.toOwnedCode ∧ (j1 = j ∧ pageModule = false ∨ ∀ pc', j1.slotAt pc' = if pc' = p.pc then
        (if 0 ≤ memberSlot pageModule base k then some (memberSlot pageModule base k) else none) else j.slotAt pc') := by
      unfold landMember at h1
      split at h1
      · rename_i hskip
        cases h1
        exact ⟨Exact.lands_refl h, .inl ⟨rfl, by cases pageModule <;> simp_all⟩⟩
      · split at h1
        · rename_i hskip
          cases h1
          exact ⟨Exact.lands_refl h, .inl ⟨rfl, by cases pageModule <;> simp_all⟩⟩
        · obtain ⟨hl, stamp, hc⟩ := Exact.landBlock h hg (fun hf => landBlock_owned (h0 hf k le_rfl hk) h1) (fun hf hlong => by
            cases hpm : pageModule with
            | true => exact absurd (hone hpm p List.mem_cons_self) (Nat.not_le.2 hlong)
            | false => exact hpm ▸ hfree hpm hf k le_rfl hk) (hx k le_rfl hk) h1
          exact ⟨hl, .inr (slotAt_landed hc rfl)⟩
    obtain ⟨hl', hlast⟩ := ih (k + 1) hl.exact (fun hpm q hq => hone hpm q (List.mem_cons_of_mem p hq))
      (fun hf a ha hb => h0 hf a (by omega) (by omega)) (fun hpm hf a b hab hb => hdist hpm hf a b hab (by omega))
      (fun hpm hf a ha hb pc hs => by
        rcases hslot with ⟨he, -⟩ | hslot
        · exact hfree hpm hf a (by omega) (by omega) pc (he ▸ hs)
        · rw [hslot] at hs
          split at hs
          · split at hs
            · exact hdist hpm hf k a (by omega) (by omega) (Option.some.inj hs)
            · cases hs
          · exact hfree hpm hf a (by omega) (by omega) pc hs)
      (fun a ha hb hn => by
        rcases hl.exits (memberSlot pageModule base a) with he | he
        · exact he
        · rw [he]
          exact hx a (by omega) (by omega) hn) h2
    refine ⟨hl.trans hl', fun hpm hb _ => ?_⟩
    cases l with
    | nil =>
      cases h2
      rcases hslot with ⟨-, hn⟩ | hslot
      · rw [hpm] at hn
        cases hn
      · refine ⟨p.pc, ?_⟩
        rw [hslot, if_pos rfl, hpm]
        exact if_pos hb
    | cons q l => exact hlast hpm hb (List.cons_ne_nil q l)

theorem Exact.landEntry {s : JitSettings} {p : PendingRegion} {e : U64} (h : Exact fresh j.uses g j.toOwnedCode) (hg : Gap.Landing g)
    (hx : ∀ r, j.regionExits i = some r → r.entries = p.entries) (he : e ∈ p.entries) (hr : landEntry s i p j e = some j') :
    Lands fresh g j.toOwnedCode j'.toOwnedCode := by
  unfold JitState.landEntry at hr
  split at hr
  · cases hr
    exact Exact.lands_refl h
  · split at hr
    · cases hr
      exact Exact.lands_refl h
    · split at hr
      · cases hr
        exact Exact.lands_refl h
      · have h1 : Exact fresh j.stamp.uses g j.stamp.toOwnedCode := { h with }
        have hgo : OwnersGo j.toOwnedCode j.stamp.toOwnedCode := h.ownersGo rfl rfl rfl rfl rfl rfl
        have hl := (Exact.install h1 hg (fun r _ hr => by
          rw [hx r hr]
          exact he) hr).1
        exact ⟨hl.exact, hgo.trans hl.owners, hl.exits⟩

theorem Exact.landEntries {s : JitSettings} {p : PendingRegion} (hg : Gap.Landing g) (l : List U64) :
    ∀ {j j' : JitState}, Exact fresh j.uses g j.toOwnedCode → (∀ r, j.regionExits i = some r → r.entries = p.entries) → (∀ e ∈ l, e ∈ p.entries) →
      l.foldlM (JitState.landEntry s i p) j = some j' → Lands fresh g j.toOwnedCode j'.toOwnedCode := by
  induction l with
  | nil => exact fun h _ _ hr => Option.some.inj hr ▸ Exact.lands_refl h
  | cons e l ih =>
    intro j j' h hx hl hr
    rw [List.foldlM_cons] at hr
    obtain ⟨j1, h1, h2⟩ := Option.bind_eq_some_iff.1 hr
    have hle := Exact.landEntry h hg hx (hl e List.mem_cons_self) h1
    refine hle.trans (ih hle.exact (fun r hr => ?_) (fun e' he' => hl e' (List.mem_cons_of_mem e he')) h2)
    rcases hle.exits i with he | he
    · rw [he] at hr
      cases hr
    · rw [he] at hr
      exact hx r hr

/-- The records of a region that lands. -/
def recordRegion (j : JitState) (i : ℤ) (p : PendingRegion) : JitState :=
  let j := j.recordPages i p.pages
  { j with regionExits := j.regionExits.insert i ⟨p.aspace, p.lead, p.pages, p.entries⟩ }

theorem completeRegionLanding_eq (s : JitSettings) (j : JitState) (i : ℤ) (p : PendingRegion) :
    j.completeRegionLanding s i p = p.entries.foldlM (JitState.landEntry s i p) (j.recordRegion i p) := rfl

theorem recordRegion_exits (j : JitState) (i : ℤ) (p : PendingRegion) {r : RegionExits} (hr : (j.recordRegion i p).regionExits i = some r) :
    r.entries = p.entries := by
  change (j.recordPages i p.pages).regionExits.insert i ⟨p.aspace, p.lead, p.pages, p.entries⟩ i = some r at hr
  rw [HashMap.insert_self] at hr
  rw [← Option.some.inj hr]

/-- The records of a slot that no entry runs in. -/
theorem Exact.recordRegion {p : PendingRegion} (h : Exact fresh j.uses g j.toOwnedCode) (hs : (j.slotOwner i).isSome)
    (hu : ∀ pc, j.slotAt pc ≠ some i) : Exact fresh (j.recordRegion i p).uses g (j.recordRegion i p).toOwnedCode ∧
      OwnersGo j.toOwnedCode (j.recordRegion i p).toOwnedCode ∧ (j.recordRegion i p).cache = j.cache := by
  have h1 : Exact fresh j.uses g (j.recordPages i p.pages).toOwnedCode := Exact.recordPages h (fun _ => hs) fun _ _ => hu
  obtain ⟨hcache, hso, hexits⟩ := recordPages_same j i p.pages
  have hslot : ∀ pc, (j.recordPages i p.pages).slotAt pc = j.slotAt pc := fun pc => by
    unfold OwnedCode.slotAt
    rw [hcache]
  have h2 : Exact fresh (j.recordPages i p.pages).uses g (j.recordRegion i p).toOwnedCode := by
    rw [uses_congr hcache]
    exact { h1 with
      exits := fun k hk => by
        change ((j.recordPages i p.pages).regionExits.insert i ⟨p.aspace, p.lead, p.pages, p.entries⟩ k).isSome at hk
        rw [HashMap.insert_apply] at hk
        split at hk
        · rename_i he
          change ((j.recordPages i p.pages).slotOwner k).isSome
          rw [he, hso]
          exact hs
        · exact h1.exits k hk
      exitPcs := fun pc k r hsl hx => by
        have hki : k ≠ i := fun he => hu pc ((hslot pc).symm.trans (he ▸ hsl))
        exact h1.exitPcs pc k r hsl ((HashMap.insert_of_ne hki).symm.trans hx) }
  have hgo : OwnersGo (j.recordPages i p.pages).toOwnedCode (j.recordRegion i p).toOwnedCode := h1.ownersGo rfl rfl rfl rfl rfl rfl
  exact ⟨h2, (recordPages_ownersGo h i p.pages).trans hgo, hcache⟩

/-- **A region lands**: its records first, then its entries. -/
theorem Exact.completeRegionLanding {s : JitSettings} {p : PendingRegion} (h : Exact fresh j.uses g j.toOwnedCode) (hg : Gap.Landing g)
    (hs : (j.slotOwner i).isSome) (hu : ∀ pc, j.slotAt pc ≠ some i) (hr : j.completeRegionLanding s i p = some j') :
    Exact fresh j'.uses g j'.toOwnedCode ∧ OwnersGo j.toOwnedCode j'.toOwnedCode := by
  obtain ⟨h1, hgo, -⟩ := Exact.recordRegion (p := p) h hs hu
  rw [completeRegionLanding_eq] at hr
  have hl := Exact.landEntries hg p.entries h1 (fun r hr => recordRegion_exits j i p hr) (fun e he => he) hr
  exact ⟨hl.exact, hgo.trans hl.owners⟩

end JitState
end Lish
