import Lish.Jit.EntrySites
import Lish.Jit.ExactRuns
/-!
# LandingSites — every landing, seen at each pc

The cache entry of a pc and the module of its page, as a site; what a landing does to the maps is what it does to each site.
-/
namespace Lish

open OwnedCode JitState

namespace OwnedCode

/-- The cache entry of a pc, its last use apart, and the compile it is from. -/
def codeAt (c : OwnedCode) (pc : U64) : Option (Option (JitBlock × Option JitOwnerId)) :=
  (c.cache pc).map (Option.map fun b => ({ b with lastUsed := 0 }, c.slotOwner b.idx))

/-- The owner of the module that is live on a page. -/
def liveOn (c : OwnedCode) (key : PageKey) : Option JitOwnerId := (c.pageModules key).bind PageModuleState.activeOwner

/-- The site that an address space has at a pc. -/
def site (c : OwnedCode) (aspace pc : U64) : Site := ⟨c.codeAt pc, c.liveOn (aspace, pageOf pc)⟩

/-- A pc is as a site says; an owner that is gone may be named as live still. -/
def Shows (c : OwnedCode) (aspace pc : U64) (s : Site) : Prop :=
  c.codeAt pc = s.code ∧ c.liveOn (aspace, pageOf pc) = s.live.filter fun o => c.Alive o

variable {fresh : Prop} {f f' : ℤ → ℕ} {g g' : Gap} {c c' : OwnedCode} {o : JitOwnerId} {aspace pc : U64} {s : Site}

/-- The owner of the code at a pc is alive. -/
theorem Exact.code_alive (h : Exact fresh f g c) (hs : c.codeAt pc = s.code) (ho : s.owner = some o) :
    c.ownerAt pc = some o ∧ c.Alive o := by
  unfold Site.owner at ho
  rw [← hs] at ho
  unfold codeAt at ho
  rw [Option.join_map_eq_map_join, Option.bind_map] at ho
  obtain ⟨b, hb, hbo⟩ := Option.bind_eq_some_iff.1 ho
  have hi : c.slotOwner b.idx = some o := hbo
  refine ⟨ownerAt_eq_some.2 ⟨b.idx, slotAt_of_block hb (h.nonneg _ (by rw [hi]; rfl)), hi⟩, h.alive hi⟩

/-- The code at a pc with an owner is the owner's. -/
theorem code_of_ownerAt (hs : c.codeAt pc = s.code) (ho : c.ownerAt pc = some o) : s.owner = some o := by
  obtain ⟨i, hi, hio⟩ := ownerAt_eq_some.1 ho
  rw [slotAt_join] at hi
  obtain ⟨b, hb, rfl, -⟩ := entrySlot_eq_some.1 hi
  unfold Site.owner
  rw [← hs]
  unfold codeAt
  rw [Option.join_map_eq_map_join, Option.bind_map, hb]
  exact hio

theorem Exact.shows_site (h : Exact fresh f g c) : c.Shows aspace pc (c.site aspace pc) := by
  refine ⟨rfl, ?_⟩
  cases hl : c.liveOn (aspace, pageOf pc) with
  | none =>
    unfold site
    rw [hl]
    rfl
  | some o =>
    unfold site
    rw [hl, Option.filter_some, if_pos (decide_eq_true (h.active _ hl).1)]

theorem survives_active (st : PageModuleState) :
    (c.survives st).bind PageModuleState.activeOwner = st.activeOwner.filter fun o => c.Alive o := by
  cases st with
  | attempted source => rfl
  | pending source ticket prior =>
    cases prior with
    | none => rfl
    | some code =>
      rw [survives_pending]
      change (Option.filter _ (some code)).map LivePageModule.owner = Option.filter _ (some code.owner)
      rw [Option.filter_some, Option.filter_some]
      split <;> rfl
  | live code =>
    rw [survives_live]
    change _ = Option.filter _ (some code.owner)
    rw [Option.filter_some]
    by_cases ha : c.Alive code.owner
    · rw [if_pos ha, if_pos (decide_eq_true ha)]
      rfl
    · rw [if_neg ha, if_neg fun hn => ha (of_decide_eq_true hn)]
      rfl

/-- Where owners go, what is live on a page is what is left. -/
theorem OwnersGo.liveOn (h : OwnersGo c c') {key : PageKey} {live : Option JitOwnerId}
    (hl : c.liveOn key = live.filter fun o => c.Alive o) : c'.liveOn key = live.filter fun o => c'.Alive o := by
  have hbind : c'.liveOn key = (c.liveOn key).filter fun o => c'.Alive o := by
    unfold OwnedCode.liveOn
    rw [h.modules, Option.bind_assoc]
    cases c.pageModules key with
    | none => rfl
    | some st => exact survives_active st
  rw [hbind, hl, Option.filter_filter]
  congr 1
  funext o
  by_cases ha : c'.Alive o
  · rw [decide_eq_true ha, decide_eq_true (h.alive o ha)]
    rfl
  · rw [decide_eq_false ha, Bool.and_false]

theorem Exact.unowned (h : Exact fresh f g c) {i : ℤ} (hi : ¬0 ≤ i) : c.slotOwner i = none := by
  by_contra hn
  exact hi (h.nonneg i (Option.isSome_iff_ne_none.2 hn))

/-- An entry that is left keeps its owner. -/
theorem OwnersGo.codeAt (hgo : OwnersGo c c') (h : Exact fresh f g c) (h' : Exact fresh f' g' c') (hc : c'.cache pc = c.cache pc) :
    c'.codeAt pc = c.codeAt pc := by
  unfold OwnedCode.codeAt
  rw [hc]
  cases he : c.cache pc with
  | none => rfl
  | some e =>
    cases e with
    | none => rfl
    | some b =>
      have hslot : c'.slotOwner b.idx = c.slotOwner b.idx := by
        by_cases h0 : 0 ≤ b.idx
        · obtain ⟨o, ho⟩ := Option.isSome_iff_exists.1 (h'.owned pc b.idx (slotAt_of_block (by rw [hc, he]; rfl) h0))
          rw [ho, hgo.owner _ _ ho]
        · rw [h.unowned h0, h'.unowned h0]
      rw [Option.map_some, Option.map_some, Option.map_some, Option.map_some, hslot]

theorem Shows.of_owners (hs : c.Shows aspace pc s) (hgo : OwnersGo c c') (h : Exact fresh f g c) (h' : Exact fresh f' g' c')
    (hc : c'.cache pc = c.cache pc) : c'.Shows aspace pc s := ⟨(hgo.codeAt h h' hc).trans hs.1, hgo.liveOn hs.2⟩

/-- An entry that came, in a slot of its compile. -/
theorem Shows.insert {pc₀ : U64} {b : JitBlock} (hs : c.Shows aspace pc s) (hgo : OwnersGo c c') (h : Exact fresh f g c)
    (h' : Exact fresh f' g' c')
    (hc : c'.cache = c.cache.insert pc₀ (some b)) (h0 : 0 ≤ b.idx) (ho : ∀ q, c.slotOwner b.idx = some q → q = o) :
    c'.Shows aspace pc (if pc₀ = pc then s.put o { b with lastUsed := 0 } else s) := by
  split
  · rename_i he
    rw [he] at hc
    have hcode : c'.cache pc = some (some b) := by rw [hc, HashMap.insert_self]
    refine ⟨?_, hgo.liveOn hs.2⟩
    obtain ⟨q, hq⟩ := Option.isSome_iff_exists.1 (h'.owned pc b.idx (slotAt_of_block (by rw [hcode]; rfl) h0))
    unfold OwnedCode.codeAt
    rw [hcode, Option.map_some, Option.map_some, hq, ho q (hgo.owner _ _ hq)]
    rfl
  · rename_i he
    exact hs.of_owners hgo h h' (by rw [hc, HashMap.insert_of_ne fun hn => he hn.symm])

/-! ## What the landings read -/

/-- The code is the live module's. -/
theorem Shows.kept {j : JitState} (hs : j.Shows aspace pc s) (h : Exact fresh f g j.toOwnedCode) :
    j.pageModuleOwnsCachedEntry aspace pc = s.kept := by
  have howns : j.pageModuleOwnsCachedEntry aspace pc = true ↔ ∃ q, j.liveOn
    (aspace, pageOf pc) = some q ∧ j.ownerAt pc = some q := by
    unfold pageModuleOwnsCachedEntry OwnedCode.liveOn
    split
    · rename_i hl
      rw [hl]
      simp
    · rename_i q hl
      rw [hl]
      split
      · rename_i hn
        simp [ownerAt_eq_some, hn]
      · rename_i i hi
        simp [ownerAt_eq_some, hi]
  rw [Bool.eq_iff_iff, howns, Site.kept_iff]
  constructor
  · rintro ⟨q, hl, ho⟩
    rw [hs.2, Option.filter_eq_some_iff] at hl
    exact ⟨q, hl.1, code_of_ownerAt hs.1 ho⟩
  · rintro ⟨q, hl, ho⟩
    obtain ⟨hat, halive⟩ := h.code_alive hs.1 ho
    refine ⟨q, ?_, hat⟩
    rw [hs.2, hl, Option.filter_some, if_pos (decide_eq_true halive)]

/-- The cache entry, but for its last use. -/
theorem Shows.cached (hs : c.Shows aspace pc s) : s.cached.join = (c.cache pc).join.map fun b => { b with lastUsed := 0 } := by
  unfold Site.cached
  rw [← hs.1]
  unfold OwnedCode.codeAt
  cases c.cache pc with
  | none => rfl
  | some e =>
    cases e with
    | none => rfl
    | some b => rfl

theorem Shows.replace (hs : c.Shows aspace pc s) (block : JitBlock) (keep : ℕ) :
    blockShouldReplaceRegion (c.cache pc) block keep = blockShouldReplaceRegion s.cached block keep := by
  unfold blockShouldReplaceRegion
  rw [hs.cached, Option.any_map]

theorem Shows.long (hs : c.Shows aspace pc s) (keep : ℕ) :
    ((c.cache pc).join.any fun b => decide (b.n ≠ 0) && !b.fp && decide (keep ≤ b.n)) = s.long keep := by
  unfold Site.long
  rw [hs.cached, Option.any_map]

end OwnedCode

namespace JitState

variable {g : Gap} {j j' : JitState} {settings : JitSettings} {i : ℤ} {o : JitOwnerId} {aspace pc : U64} {s : Site}
  {pageModule : Bool}

/-! ## Traces and the members of a module -/

/-- A trace, or a member of a page module, at a pc of its own. -/
def landAt (keep : ℕ) (pageModule : Bool) (o : JitOwnerId) (block : JitBlock) (s : Site) : Site :=
  if pageModule then s.put o block else s.land keep (.trace o block)

theorem replace_moved (current : Option (Option JitBlock)) (block : JitBlock) (i : ℤ) (stamp : U64) (keep : ℕ) :
    blockShouldReplaceRegion current
      { block with idx := i, lastUsed := stamp } keep = blockShouldReplaceRegion current block keep := rfl

/-- A member lands. -/
theorem member_shows {p : PendingBlock} (h : Exact False j.uses g j.toOwnedCode) (hg : Gap.Landing g) (h0 : 0 ≤ i)
    (hx : j.regionExits i = none)
    (ho : ∀ q, j.slotOwner i = some q → q = o) (ha : p.aspace = aspace) (hr : j.landMember settings pageModule i p = some j')
    (hs : j.Shows aspace pc s) : Lands False g j.toOwnedCode j'.toOwnedCode ∧
      j'.Shows aspace pc
        (if p.pc = pc then landAt settings.traceKeepMin pageModule o { p.block with idx := i, lastUsed := 0 } s else s) := by
  unfold landMember at hr
  unfold landAt
  split at hr
  · rename_i hskip
    cases hr
    refine ⟨Exact.lands_refl h, ?_⟩
    split
    · rename_i he
      rw [Bool.and_eq_true, Bool.not_eq_true', ha, he, hs.kept h] at hskip
      rw [hskip.1, if_neg Bool.false_ne_true, Site.land_trace_kept hskip.2]
      exact hs
    · exact hs
  · rename_i hown
    split at hr
    · rename_i hskip
      cases hr
      refine ⟨Exact.lands_refl h, ?_⟩
      split
      · rename_i he
        rw [Bool.and_eq_true, Bool.not_eq_true', Bool.not_eq_true', he, hs.replace] at hskip
        rw [hskip.1, ha, he, hs.kept h] at hown
        rw [hskip.1, if_neg Bool.false_ne_true, Site.land_trace_free (by simpa using hown), replace_moved, hskip.2, if_neg Bool.false_ne_true]
        exact hs
      · exact hs
    · rename_i hskip
      obtain ⟨hl, stamp, hc⟩ := Exact.landBlock h hg False.elim (fun hf => hf.elim) (fun _ => hx) hr
      refine ⟨hl, ?_⟩
      have hin := hs.insert hl.owners h hl.exact hc h0 ho
      split
      · rename_i he
        rw [if_pos he] at hin
        cases hpm : pageModule with
        | true => exact hin
        | false =>
          rw [hpm, ha, he, hs.kept h] at hown
          rw [hpm, he, hs.replace] at hskip
          rw [if_neg Bool.false_ne_true, Site.land_trace_free (by simpa using hown), replace_moved, if_pos (by simpa using hskip)]
          exact hin
      · rename_i he
        rwa [if_neg he] at hin

/-- An individual block lands as the only member of a batch would. -/
theorem completeBlockLanding_member {M : Type} [FullSystemJitMachine M] {m m' : M} {p : PendingBlock}
    (hr : j.completeBlockLanding settings m i p = some (m', j')) :
    ∃ j₁, j.landMember settings false i p = some j₁ ∧ j'.toOwnedCode = j₁.toOwnedCode := by
  unfold completeBlockLanding at hr
  unfold landMember
  split at hr
  · rename_i hk
    cases hr
    exact ⟨j, by rw [hk]; rfl, rfl⟩
  · rename_i hk
    split at hr
    · rename_i hb
      cases hr
      exact ⟨j, by rw [if_neg (by simpa using hk), hb]; rfl, rfl⟩
    · rename_i hb
      obtain ⟨j₁, hj₁, hr⟩ := Option.map_eq_some_iff.1 hr
      cases hr
      refine ⟨j₁, by rw [if_neg (by simpa using hk), if_neg (by simpa using hb)]; exact hj₁, ?_⟩
      unfold noteMissed
      dsimp only
      split <;> rfl

/-- The members of a batch at one pc, one by one. -/
def membersAt (keep : ℕ) (pageModule : Bool) (base : ℤ) (o : JitOwnerId) (pc : U64) (l : List (PendingBlock × ℕ)) (s : Site) :
    Site :=
  l.foldl (fun s m =>
    if m.1.pc = pc then landAt keep pageModule o { m.1.block with idx := memberSlot pageModule base m.2, lastUsed := 0 } s else s) s

/-- What every member of a batch keeps, the whole batch keeps. -/
theorem members_rec {base : ℤ} {Q : PendingBlock → Prop} {P : List (PendingBlock × ℕ) → JitState → Prop}
    (step : ∀ (done : List (PendingBlock × ℕ)) (p : PendingBlock) (a : ℕ) (j j' : JitState), Exact False j.uses g j.toOwnedCode →
      0 ≤ memberSlot pageModule base a → j.regionExits (memberSlot pageModule base a) = none →
      (∀ q, j.slotOwner (memberSlot pageModule base a) = some q → q = o) → Q p →
      j.landMember settings pageModule (memberSlot pageModule base a) p = some j' → P done j →
      Lands False g j.toOwnedCode j'.toOwnedCode ∧ P (done ++ [(p, a)]) j') (l : List PendingBlock) :
    ∀ (k : ℕ) (done : List (PendingBlock × ℕ)) {j j' : JitState}, Exact False j.uses g j.toOwnedCode → (∀ m ∈ l, Q m) →
      (∀ a, k ≤ a → a < k + l.length → 0 ≤ memberSlot pageModule base a ∧ j.regionExits (memberSlot pageModule base a) = none ∧
        ∀ q, j.slotOwner (memberSlot pageModule base a) = some q → q = o) →
      (l.zipIdx k).foldlM (fun j m => j.landMember settings pageModule (memberSlot pageModule base m.2) m.1) j = some j' →
      P done j → Lands False g j.toOwnedCode j'.toOwnedCode ∧ P (done ++ l.zipIdx k) j' := by
  induction l with
  | nil =>
    intro k done j j' h _ _ hr hP
    cases hr
    exact ⟨Exact.lands_refl h, by rw [List.zipIdx_nil, List.append_nil]; exact hP⟩
  | cons p l ih =>
    intro k done j j' h hQ hslots hr hP
    rw [List.zipIdx_cons, List.foldlM_cons] at hr
    obtain ⟨j₁, h₁, h₂⟩ := Option.bind_eq_some_iff.1 hr
    obtain ⟨h0, hx, ho⟩ := hslots k le_rfl (by simp)
    obtain ⟨hl, hP₁⟩ := step done p k j j₁ h h0 hx ho (hQ p List.mem_cons_self) h₁ hP
    obtain ⟨hl', hP'⟩ := ih (k + 1) (done ++ [(p, k)]) hl.exact (fun m hm => hQ m (List.mem_cons_of_mem p hm)) (fun a ha hb => by
      obtain ⟨h0, hx, ho⟩ := hslots a (by omega) (by rw [List.length_cons]; omega)
      refine ⟨h0, ?_, fun q hq => ho q (hl.owners.owner _ _ hq)⟩
      rcases hl.exits (memberSlot pageModule base a) with he | he
      · exact he
      · rw [he, hx]) h₂ hP₁
    refine ⟨hl.trans hl', ?_⟩
    rw [List.append_assoc] at hP'
    exact hP'

theorem members_shows (o : JitOwnerId) (pageModule : Bool) (base : ℤ) (hg : Gap.Landing g) (l : List PendingBlock) (k : ℕ)
    (h : Exact False j.uses g j.toOwnedCode)
    (ha : ∀ m ∈ l, m.aspace = aspace)
    (hslots : ∀ a, k ≤ a → a < k + l.length → 0 ≤ memberSlot pageModule base a ∧ j.regionExits (memberSlot pageModule base a) = none ∧
      ∀ q, j.slotOwner (memberSlot pageModule base a) = some q → q = o)
    (hr : (l.zipIdx k).foldlM (fun j m => j.landMember settings pageModule (memberSlot pageModule base m.2) m.1) j = some j')
    (hs : j.Shows aspace pc s) : Lands False g j.toOwnedCode j'.toOwnedCode ∧
      j'.Shows aspace pc (membersAt settings.traceKeepMin pageModule base o pc (l.zipIdx k) s) := by
  refine members_rec (P := fun done j => j.Shows aspace pc (membersAt settings.traceKeepMin pageModule base o pc done s))
    (fun done p a j j' h h0 hx ho ha hr hs => ?_) l k [] h ha hslots hr hs
  obtain ⟨hl, hs'⟩ := member_shows h hg h0 hx ho ha hr hs
  refine ⟨hl, ?_⟩
  unfold membersAt
  rw [List.foldl_append]
  exact hs'

/-! ## Regions -/

/-- The entry that a region has for a pc: one on a page of its own. -/
def regionBlock (i : ℤ) (p : PendingRegion) (pc : U64) : Option JitBlock :=
  (p.pages.find? fun page => page.1 = pageOf pc).map fun page => ⟨false, i, 0, page.2 + (pc &&& 0xfff), 0⟩

/-- A region's entry lands at its pc. -/
def entryAt (keep : ℕ) (o : JitOwnerId) (block : Option JitBlock) (s : Site) : Site :=
  match block with
  | some block => s.land keep (.entry o block)
  | none => s

/-- An entry of a region lands. -/
theorem entry_shows {p : PendingRegion} {e : U64} (h : Exact False j.uses g j.toOwnedCode) (hg : Gap.Landing g) (h0 : 0 ≤ i)
    (hx : ∀ r, j.regionExits i = some r → r.entries = p.entries) (hin : e ∈ p.entries) (ho : ∀ q, j.slotOwner i = some q → q = o)
    (ha : p.aspace = aspace) (hr : landEntry settings i p j e = some j') (hs : j.Shows aspace pc s) :
    j'.Shows aspace pc (if e = pc then entryAt settings.traceKeepMin o (regionBlock i p pc) s else s) := by
  have hl := Exact.landEntry h hg hx hin hr
  unfold landEntry at hr
  unfold entryAt regionBlock
  split at hr
  · rename_i hk
    cases hr
    split
    · rename_i he
      rw [ha, he, hs.kept h] at hk
      split
      · rwa [Site.land_entry_kept hk]
      · exact hs
    · exact hs
  · rename_i hk
    split at hr
    · rename_i hpage
      cases hr
      split
      · rename_i he
        rw [he] at hpage
        rw [hpage]
        exact hs
      · exact hs
    · rename_i page hpage
      split at hr
      · rename_i hlong
        cases hr
        split
        · rename_i he
          rw [ha, he, hs.kept h] at hk
          rw [he, hs.long] at hlong
          rw [he] at hpage
          rw [hpage, Option.map_some]
          dsimp only
          rw [Site.land_entry_free (by simpa using hk), if_pos hlong]
          exact hs
        · exact hs
      · rename_i hlong
        have h1 : Exact False j.stamp.uses g j.stamp.toOwnedCode := { h with }
        have hgo : OwnersGo j.toOwnedCode j.stamp.toOwnedCode := h.ownersGo rfl rfl rfl rfl rfl rfl
        obtain ⟨hl, hc⟩ := Exact.install h1 hg (fun r _ hr => by
          rw [hx r hr]
          exact hin) hr
        have hput := (hs.of_owners hgo h h1 rfl).insert hl.owners h1 hl.exact hc h0 ho
        split
        · rename_i he
          rw [if_pos he] at hput
          rw [ha, he, hs.kept h] at hk
          rw [he, hs.long] at hlong
          rw [he] at hpage hput
          rw [hpage, Option.map_some]
          dsimp only
          rw [Site.land_entry_free (by simpa using hk), if_neg hlong]
          exact hput
        · rename_i he
          rwa [if_neg he] at hput

/-- An entry that has landed lands again. -/
theorem entryAt_again (keep : ℕ) (i : ℤ) (p : PendingRegion) (pc : U64) (s : Site) :
    entryAt keep o (regionBlock i p pc) (entryAt keep o (regionBlock i p pc) s) = entryAt keep o (regionBlock i p pc) s := by
  unfold entryAt regionBlock
  cases p.pages.find? fun page => page.1 = pageOf pc with
  | none => rfl
  | some page =>
    rw [Option.map_some]
    dsimp only
    cases hk : s.kept with
    | true => rw [Site.land_entry_kept hk, Site.land_entry_kept hk]
    | false =>
      rw [Site.land_entry_free hk]
      split
      · rename_i hl
        rw [Site.land_entry_free hk, if_pos hl]
      · -- what is there is a region's
        cases hk' : (s.put o ⟨false, i, 0, page.2 + (pc &&& 0xfff), 0⟩).kept with
        | true => rw [Site.land_entry_kept hk']
        | false => rw [Site.land_entry_free hk', Site.put_put, ite_self]

theorem entries_shows {p : PendingRegion} (hg : Gap.Landing g) (h0 : 0 ≤ i) (ha : p.aspace = aspace) (l : List U64) :
    ∀ {j j' : JitState} {s : Site}, Exact False j.uses g j.toOwnedCode → (∀ r, j.regionExits i = some r → r.entries = p.entries) →
      (∀ e ∈ l, e ∈ p.entries) → (∀ q, j.slotOwner i = some q → q = o) → l.foldlM (landEntry settings i p) j = some j' →
      j.Shows aspace pc s →
      j'.Shows aspace pc (if pc ∈ l then entryAt settings.traceKeepMin o (regionBlock i p pc) s else s) := by
  induction l with
  | nil =>
    intro j j' s _ _ _ _ hr hs
    cases hr
    exact hs
  | cons e l ih =>
    intro j j' s h hx hl ho hr hs
    rw [List.foldlM_cons] at hr
    obtain ⟨j₁, h₁, h₂⟩ := Option.bind_eq_some_iff.1 hr
    have hle := Exact.landEntry h hg hx (hl e List.mem_cons_self) h₁
    have hs₁ := entry_shows h hg h0 hx (hl e List.mem_cons_self) ho ha h₁ hs
    have hs₂ := ih hle.exact (fun r hr => by
      rcases hle.exits i with he | he
      · rw [he] at hr
        cases hr
      · rw [he] at hr
        exact hx r hr) (fun e' he' => hl e' (List.mem_cons_of_mem e he')) (fun q hq => ho q (hle.owners.owner _ _ hq)) h₂ hs₁
    by_cases he : e = pc
    · rw [if_pos he] at hs₂
      rw [if_pos (by rw [he]; exact List.mem_cons_self)]
      split at hs₂
      · rwa [entryAt_again] at hs₂
      · exact hs₂
    · rw [if_neg he] at hs₂
      rwa [if_congr (show pc ∈ e :: l ↔ pc ∈ l from ⟨fun hm => (List.mem_cons.1 hm).resolve_left fun hn => he hn.symm,
        List.mem_cons_of_mem e⟩) rfl rfl]

theorem region_shows {p : PendingRegion} (h : Exact False j.uses g j.toOwnedCode) (hg : Gap.Landing g) (h0 : 0 ≤ i)
    (ha : p.aspace = aspace)
    (hown : (j.slotOwner i).isSome) (hu : ∀ pc, j.slotAt pc ≠ some i) (ho : ∀ q, j.slotOwner i = some q → q = o)
    (hr : j.completeRegionLanding settings i p = some j') (hs : j.Shows aspace pc s) :
    j'.Shows aspace pc (if pc ∈ p.entries then entryAt settings.traceKeepMin o (regionBlock i p pc) s else s) := by
  obtain ⟨h₁, hgo, hcache⟩ := Exact.recordRegion (p := p) h hown hu
  rw [completeRegionLanding_eq] at hr
  exact entries_shows hg h0 ha p.entries h₁ (fun r hr => recordRegion_exits j i p hr) (fun e he => he)
    (fun q hq => ho q (hgo.owner _ _ hq)) hr (hs.of_owners hgo h h₁ (congrFun hcache pc))

/-! ## Page modules -/

/-- The block that a page's module has at a pc: its last member there. -/
def pageBlock (base : ℤ) (members : List PendingBlock) (pc : U64) : Option JitBlock :=
  (members.reverse.find? fun m => m.pc = pc).map fun m => { m.block with idx := base, lastUsed := 0 }

theorem pageBlock_cons (base : ℤ) (p : PendingBlock) (l : List PendingBlock) (pc : U64) :
    pageBlock base (p :: l) pc = (pageBlock base l pc).or
      (if p.pc = pc then some { p.block with idx := base, lastUsed := 0 } else none) := by
  unfold pageBlock
  rw [List.reverse_cons, List.find?_append]
  cases l.reverse.find? fun m => decide (m.pc = pc) with
  | some m => rfl
  | none =>
    by_cases he : p.pc = pc
    · simp [he]
    · simp [he]

theorem membersAt_page (keep : ℕ) (base : ℤ) (l : List PendingBlock) (k : ℕ) (s : Site) :
    membersAt keep true base o pc (l.zipIdx k) s = ((pageBlock base l pc).map (s.put o)).getD s := by
  induction l generalizing k s with
  | nil => rfl
  | cons p l ih =>
    rw [List.zipIdx_cons, pageBlock_cons]
    change membersAt keep true base o pc (l.zipIdx (k + 1))
      (if p.pc = pc then s.put o { p.block with idx := base, lastUsed := 0 } else s) = _
    rw [ih]
    cases pageBlock base l pc with
    | some b =>
      split <;> rfl
    | none =>
      split <;> rfl

end JitState

/-- The code of a page's module is on its page. -/
def OwnedCode.OnPages (c : OwnedCode) :
    Prop := ∀ pc o key, c.ownerAt pc = some o → c.pageModuleOwner o = some key → pageOf pc = key.2

namespace Dispatcher

variable {fresh : Prop} {j j' : JitState} {d d' : Dispatcher} {o : JitOwnerId} {aspace pc : U64} {s : Site} {base : ℤ} {n : ℕ}
  {c c' : OwnedCode}

/-- A new owner's slots are not seen. -/
theorem Tracked.shows {slots : List ℤ} (ht : Tracked c o slots c') {f : ℤ → ℕ} {g : Gap} (h : Exact fresh f g c)
    (hs : c.Shows aspace pc s)
    (hl : s.live ≠ some o) : c'.Shows aspace pc s := by
  refine ⟨?_, ?_⟩
  · rw [← hs.1]
    unfold OwnedCode.codeAt
    rw [ht.cache]
    cases he : c.cache pc with
    | none => rfl
    | some e =>
      cases e with
      | none => rfl
      | some b =>
        have hslot : c'.slotOwner b.idx = c.slotOwner b.idx := by
          by_cases h0 : 0 ≤ b.idx
          · exact ht.slotOwner_of_slotAt h (slotAt_of_block (by rw [he]; rfl) h0)
          · rw [ht.slotOwner, if_neg fun hm => h0 (ht.nonneg _ hm)]
        rw [Option.map_some, Option.map_some, Option.map_some, Option.map_some, hslot]
  · unfold OwnedCode.liveOn
    rw [ht.modules]
    refine hs.2.trans ?_
    cases hq : s.live with
    | none => rfl
    | some q =>
      rw [Option.filter_some, Option.filter_some]
      refine if_congr ?_ rfl rfl
      rw [decide_eq_true_eq, decide_eq_true_eq, ht.alive]
      exact ⟨.inr, fun ha => ha.resolve_left fun he => hl (by rw [hq, he])⟩

/-- The replaced module's code goes. -/
theorem retirePrior_shows {prior : Option JitOwnerId}
    (h : Exact fresh j.uses { Gap.closed with prior := prior, landing := some o } j.toOwnedCode)
    (hne : prior ≠ some o) (hr : retirePrior j prior o = some j') (hs : j.Shows aspace pc s) :
    (s.owner.isSome ∧ s.owner = prior → j'.Shows aspace pc { s with code := none }) ∧
      (¬(s.owner.isSome ∧ s.owner = prior) → j'.Shows aspace pc s) := by
  obtain ⟨h', hgo, hdead, -⟩ := retirePrior_exact h hne hr
  unfold retirePrior at hr
  cases prior with
  | none =>
    cases hr
    exact ⟨fun hn => (by rw [hn.2] at hn; cases hn.1), fun _ => hs⟩
  | some q =>
    dsimp only at hr
    rw [if_neg fun he => hne (congrArg some he)] at hr
    obtain ⟨c, hc, hr⟩ := Option.map_eq_some_iff.1 hr
    obtain ⟨hd, -, hkeep⟩ := h.retireOwner rfl rfl hc
    cases hr
    refine ⟨fun ho => ⟨?_, hgo.liveOn hs.2⟩, fun ho => ?_⟩
    · have hat := (h.code_alive hs.1 ho.2).1
      obtain ⟨i, hi, hio⟩ := ownerAt_eq_some.1 hat
      -- were it left, its owner would be
      have hgone : c.cache pc = none := by
        refine (hd.entries.cache pc).resolve_right fun hsame => ?_
        have hi' : c.slotAt pc = some i := by
          unfold OwnedCode.slotAt at hi ⊢
          rw [hsame, hi]
        obtain ⟨q', hq'⟩ := Option.isSome_iff_exists.1 (hd.exact.owned pc i hi')
        have hsame' := hd.owners.owner i q' hq'
        rw [hio] at hsame'
        exact hdead q rfl (by rw [Option.some.inj hsame']; exact hd.exact.alive hq')
      change c.codeAt pc = none
      unfold OwnedCode.codeAt
      rw [hgone]
      rfl
    · refine hs.of_owners hgo h h' (hkeep pc fun hat => ho ?_)
      rw [code_of_ownerAt hs.1 hat]
      exact ⟨rfl, rfl⟩

/-- The page of a module that has just landed. -/
theorem pageTaken_shows {key : PageKey} {source : PageModuleSource} (entries : List U64) (ha : c.Alive o) (hk : key.1 = aspace)
    (hs : c.Shows aspace pc s) :
    (pageTaken c key source o entries).Shows aspace pc (if pageOf pc = key.2 then { s with live := some o } else s) := by
  split
  · rename_i he
    refine ⟨hs.1, ?_⟩
    have hkey : (aspace, pageOf pc) = key := by rw [he, ← hk]
    rw [hkey]
    change ((c.pageModules.insert key (.live ⟨source, o, entries⟩)) key).bind PageModuleState.activeOwner = _
    rw [HashMap.insert_self, Option.filter_some]
    exact (if_pos (decide_eq_true ha)).symm
  · rename_i he
    refine ⟨hs.1, ?_⟩
    have hkey : (aspace, pageOf pc) ≠ key := fun hn => he (by rw [← hn])
    change ((c.pageModules.insert key (.live ⟨source, o, entries⟩)) (aspace, pageOf pc)).bind PageModuleState.activeOwner = _
    rw [HashMap.insert_of_ne hkey]
    exact hs.2

/-- **A page module lands**: it takes the pcs that it has, and gives up those that only the module before it had. -/
theorem Landing.page_shows {batch : PendingBatch} {key : PageKey} {source : PageModuleSource} {prior : Option LivePageModule}
    (h : Landing False o base n d.jit.toOwnedCode) (hf : Fits False base n batch) (hp : batch.pageModule = some key)
    (hk : d.jit.pageModules key = some (.pending source o prior)) (hne : prior.map LivePageModule.owner ≠ some o)
    (hon : d.jit.OnPages) (ha : key.1 = aspace) (hr : d.landBatch o base batch = some d') (hs : d.jit.Shows aspace pc s)
    (hl : s.live ≠ some o) : d'.jit.Shows aspace pc
      (if pageOf pc = key.2 then s.land d.settings.traceKeepMin (.pageModule o (pageBlock base batch.members pc)) else s) := by
  unfold landBatch finishPendingPageModule at hr
  rw [hp] at hr
  dsimp only at hr
  rw [hk] at hr
  dsimp only at hr
  rw [if_neg fun hn => hn rfl] at hr
  obtain ⟨j1, h1, hr⟩ := Option.bind_eq_some_iff.1 hr
  obtain ⟨j2, h2, hr⟩ := Option.bind_eq_some_iff.1 hr
  obtain ⟨j0, hj0⟩ : ∃ j0 : JitState, j0 =
      { d.jit with toOwnedCode := Dispatcher.pageTaken d.jit.toOwnedCode key source o (sortDedup (batch.members.map PendingBlock.pc)) } := ⟨_, rfl⟩
  have h1 : j0.completeBatchLanding d.settings base batch = some j1 := by
    rw [hj0]
    exact h1
  have htaken : Exact False j0.uses
    { Gap.closed with prior := prior.map LivePageModule.owner, landing := some o } j0.toOwnedCode := by
    rw [hj0]
    exact h.pageTaken hk _
  have hs0 : j0.Shows aspace pc (if pageOf pc = key.2 then { s with live := some o } else s) := by
    rw [hj0]
    exact pageTaken_shows _ h.alive ha hs
  have hn : 0 < n := by
    rw [hf.count, hp]
    exact Nat.one_pos
  have hbase : wrapI32 (base + (0 : ℕ)) = base := by
    rw [Int.natCast_zero, Int.add_zero, wrapI32_of_lt hf.nonneg hf.lt]
  have hslot : j0.regionExits base = none ∧ ∀ q, j0.slotOwner base = some q → q = o := by
    have hx := h.noExits 0 hn (by rw [hbase]; exact hf.nonneg)
    have ho := h.owned 0 hn (by rw [hbase]; exact hf.nonneg)
    rw [hbase] at hx ho
    rw [hj0]
    exact ⟨hx, fun q hq => Option.some.inj (hq.symm.trans ho)⟩
  have hpm : batch.pageModule.isSome = true := by rw [hp]; rfl
  unfold completeBatchLanding at h1
  rw [hpm] at h1
  obtain ⟨hlands, hs1⟩ := members_shows o true base ⟨rfl, rfl, rfl⟩ batch.members 0 htaken
    (fun m hm => (((hf.ofPage key hp).2 m hm).1).trans ha) (fun a _ _ => ⟨hf.nonneg, hslot⟩) h1 hs0
  rw [membersAt_page] at hs1
  obtain ⟨hdrop, hkeep⟩ := retirePrior_shows hlands.exact hne h2 hs1
  rw [← Option.some.inj hr]
  rw [publishBase_code]
  -- what is live on the page before
  have hlive : d.jit.liveOn key = prior.map LivePageModule.owner := by
    unfold OwnedCode.liveOn
    rw [hk]
    rfl
  split
  · rename_i he
    rw [if_pos he] at hdrop hkeep
    cases hb : pageBlock base batch.members pc with
    | some b =>
      rw [hb] at hkeep
      exact hkeep fun hn => hne hn.2.symm
    | none =>
      rw [hb] at hdrop hkeep
      have hkey : (aspace, pageOf pc) = key := by rw [he, ← ha]
      have hfilter := hs.2
      rw [hkey, hlive] at hfilter
      have hiff : (s.owner.isSome ∧ s.owner = prior.map LivePageModule.owner) ↔ s.kept = true := by
        rw [Site.kept_iff]
        constructor
        · rintro ⟨hsome, ho⟩
          obtain ⟨q, hq⟩ := Option.isSome_iff_exists.1 hsome
          rw [← ho, hq] at hfilter
          exact ⟨q, (Option.filter_eq_some_iff.1 hfilter.symm).1, hq⟩
        · rintro ⟨q, hq, ho⟩
          have halive := (h.exact.code_alive hs.1 ho).2
          rw [hq, Option.filter_some, if_pos (decide_eq_true halive)] at hfilter
          exact ⟨by rw [ho]; rfl, ho.trans hfilter.symm⟩
      cases hkept : s.kept with
      | true =>
        rw [Site.land_page_kept hkept hl]
        exact hdrop (hiff.2 hkept)
      | false =>
        rw [Site.land_page_free hkept]
        exact hkeep fun hn => Bool.false_ne_true (hkept.symm.trans (hiff.1 hn))
  · rename_i he
    rw [if_neg he] at hkeep
    -- neither module has code off its page
    have hnone : pageBlock base batch.members pc = none := by
      unfold pageBlock
      rw [Option.map_eq_none_iff, List.find?_eq_none]
      intro m hm hpc
      obtain ⟨-, hpage, -⟩ := (hf.ofPage key hp).2 m (List.mem_reverse.1 hm)
      exact he (by rw [← hpage, of_decide_eq_true hpc])
    rw [hnone] at hkeep
    refine hkeep fun ⟨hsome, ho⟩ => ?_
    obtain ⟨q, hq⟩ := Option.isSome_iff_exists.1 hsome
    have hq' : s.owner = some q := hq
    have hmod := (h.exact.modules q key).2 (show d.jit.liveOn key = some q by rw [hlive, ← ho]; exact hq)
    exact he (hon pc q key (h.exact.code_alive hs.1 hq').1 hmod.1)

end Dispatcher

/-- What a compile brings to a pc. -/
def PendingJit.arrival (p : PendingJit) (base : ℤ) (aspace pc : U64) : Arrival :=
  match p.kind with
  | .batch b =>
    b.pageModule.elim
      (match b.members.zipIdx.find? fun m => m.1.pc = pc with
      | some m => .trace p.ticket { m.1.block with idx := wrapI32 (base + m.2), lastUsed := 0 }
      | none => .elsewhere)
      fun key => if key.1 = aspace ∧ pageOf pc = key.2 then .pageModule p.ticket (pageBlock base b.members pc) else .elsewhere
  | .region r => (if r.entries.contains pc then regionBlock base r pc else none).elim .elsewhere (.entry p.ticket)
  | .block b => if b.pc = pc then .trace p.ticket { b.block with idx := base, lastUsed := 0 } else .elsewhere

/-- The compile is of one address space. -/
def PendingJit.InSpace (p : PendingJit) (aspace : U64) : Prop :=
  match p.kind with
  | .batch b => (∀ m ∈ b.members, m.aspace = aspace) ∧ ∀ key, b.pageModule = some key → key.1 = aspace
  | .region r => r.aspace = aspace
  | .block b => b.aspace = aspace

/-- No pc is in a batch of traces twice. -/
def PendingJit.Once (p : PendingJit) : Prop := ∀ b, p.kind = .batch b → b.pageModule = none → (b.members.map PendingBlock.pc).Nodup

namespace JitState

/-- At a pc that is in a batch once, one trace lands. -/
theorem membersAt_traces {o : JitOwnerId} {pc : U64} (keep : ℕ) (base : ℤ) (l : List PendingBlock)
    (hn : (l.map PendingBlock.pc).Nodup) (k : ℕ) (s : Site) :
    membersAt keep false base o pc (l.zipIdx k) s = (((l.zipIdx k).find? fun m => m.1.pc = pc).map fun m =>
      s.land keep (.trace o { m.1.block with idx := wrapI32 (base + m.2), lastUsed := 0 })).getD s := by
  induction l generalizing k s with
  | nil => rfl
  | cons p l ih =>
    obtain ⟨hp, hl⟩ := List.nodup_cons.1 hn
    rw [List.zipIdx_cons]
    change membersAt keep false base o pc (l.zipIdx (k + 1)) (if p.pc = pc then _ else s) = _
    rw [ih hl]
    by_cases he : p.pc = pc
    · have hnone : ((l.zipIdx (k + 1)).find? fun m => decide (m.1.pc = pc)) = none := by
        rw [List.find?_eq_none]
        intro m hm hpc
        refine hp (List.mem_map.2 ⟨m.1, ?_, (of_decide_eq_true hpc).trans he.symm⟩)
        exact List.fst_mem_of_mem_zipIdx hm
      have hfirst : ((p, k) :: l.zipIdx (k + 1)).find? (fun m => decide (m.1.pc = pc)) = some (p, k) :=
        List.find?_cons_of_pos (by simpa using he)
      rw [hnone, hfirst, if_pos he]
      rfl
    · have hrest : ((p, k) :: l.zipIdx (k + 1)).find? (fun m => decide (m.1.pc = pc)) =
          (l.zipIdx (k + 1)).find? (fun m => decide (m.1.pc = pc)) := List.find?_cons_of_neg (by simpa using he)
      rw [if_neg he, hrest]

end JitState

namespace Dispatcher

variable {M : Type} [FullSystemJitMachine M] {fresh : Prop} {d d' : Dispatcher} {aspace pc : U64} {s : Site} {base : ℤ} {n : ℕ}
  {c : OwnedCode}

/-- **A compile lands**, at each pc as a site. -/
theorem land_shows {m m' : M} {p : PendingJit} (hd : Exact False d.jit.uses .closed d.jit.toOwnedCode)
    (ht : Tracked d.jit.toOwnedCode p.ticket ((slotsFrom base n).filter (0 ≤ ·)) c) (h : Landing False p.ticket base n c)
    (hp : p.Proper)
    (hb : base < 2 ^ 31) (hroom : base + n ≤ 2 ^ 31) (ho : d.outcome m p base n = .landed) (hin : p.InSpace aspace) (honce : p.Once)
    (hon : c.OnPages) (hr : land { d with jit := { d.jit with toOwnedCode := c } } m p base = some (m', d'))
    (hs : c.Shows aspace pc s) (hl : s.live ≠ some p.ticket) :
    d'.jit.Shows aspace pc (s.land d.settings.traceKeepMin (p.arrival base aspace pc)) := by
  obtain ⟨hn, h0, hcur⟩ := current_of_landed ho
  have hg : Gap.Landing { Gap.closed with landing := some p.ticket } := ⟨rfl, rfl, rfl⟩
  unfold PendingJit.InSpace at hin
  unfold PendingJit.slotCount at hn
  unfold land at hr
  unfold PendingJit.arrival
  cases hk : p.kind with
  | block block =>
    rw [hk] at hin hn hr
    dsimp only at hin hn hr ⊢
    obtain ⟨⟨m1, j⟩, hj, hr⟩ := Option.map_eq_some_iff.1 hr
    cases hr
    obtain ⟨hown, hu, hx⟩ := h.first (by omega) h0 hb
    obtain ⟨j₁, hj₁, hcode⟩ := completeBlockLanding_member hj
    obtain ⟨-, hshows⟩ := member_shows (j := { d.jit with toOwnedCode := c }) h.exact hg h0 hx
      (fun q hq => Option.some.inj (hq.symm.trans hown)) hin hj₁ hs
    change j.Shows aspace pc _
    rw [hcode]
    split
    · rename_i he
      rwa [if_pos he] at hshows
    · rename_i he
      rwa [if_neg he] at hshows
  | region region =>
    rw [hk] at hin hn hr
    dsimp only at hin hn hr ⊢
    obtain ⟨j, hj, hr⟩ := Option.map_eq_some_iff.1 hr
    cases hr
    obtain ⟨hown, hu, -⟩ := h.first (by omega) h0 hb
    have hcode := finishSuperblock_code p.ticket region.aspace true region.pages { d.jit with toOwnedCode := c }
    have hshows := region_shows (o := p.ticket) (by rw [hcode]; exact h.exact) hg h0 hin
      (by rw [hcode]; exact Option.isSome_iff_exists.2 ⟨_, hown⟩)
      (by rw [hcode]; exact hu) (fun q hq => by rw [hcode] at hq; exact Option.some.inj (hq.symm.trans hown)) hj
      (by rw [hcode]; exact hs)
    change j.Shows aspace pc _
    split at hshows
    · rename_i he
      rw [if_pos (List.contains_iff_mem.2 he)]
      unfold entryAt at hshows
      cases hblock : regionBlock base region pc with
      | some block => rwa [hblock] at hshows
      | none => rwa [hblock] at hshows
    · rename_i he
      rw [if_neg fun hc => he (List.contains_iff_mem.1 hc)]
      exact hshows
  | batch batch =>
    rw [hk] at hin hn hr
    dsimp only at hin hn hr ⊢
    obtain ⟨d1, hd1, hr⟩ := Option.map_eq_some_iff.1 hr
    cases hr
    cases hpm : batch.pageModule with
    | none =>
      have hnb := honce batch hk hpm
      unfold landBatch finishPendingPageModule at hd1
      rw [hpm] at hd1 hn
      obtain ⟨j1, h1, hd1⟩ := Option.bind_eq_some_iff.1 hd1
      obtain ⟨j2, h2, hd1⟩ := Option.bind_eq_some_iff.1 hd1
      cases h2
      unfold completeBatchLanding at h1
      rw [hpm] at h1
      rw [if_neg (by simp)] at hn
      obtain ⟨-, hshows⟩ := members_shows p.ticket false base hg batch.members 0 (j := { d.jit with toOwnedCode := c })
        h.exact hin.1 (fun a _ ha => by
          have hslot : wrapI32 (base + a) = base + a := wrapI32_of_lt (by omega) (by omega)
          have h0' : 0 ≤ wrapI32 (base + a) := by rw [hslot]; omega
          exact ⟨h0', h.noExits a (by omega) h0', fun q hq => Option.some.inj (hq.symm.trans (h.owned a (by omega) h0'))⟩) h1 hs
      rw [membersAt_traces _ _ _ hnb] at hshows
      rw [← Option.some.inj hd1, publishBase_code]
      dsimp only
      split
      · rename_i m hm
        rw [hm] at hshows
        exact hshows
      · rename_i hm
        rw [hm] at hshows
        exact hshows
    | some key =>
      obtain ⟨source, prior, hkey⟩ := hcur batch key hk hpm
      have hne : prior.map LivePageModule.owner ≠ some p.ticket := by
        intro he
        have := (hd.active key (o := p.ticket) (by rw [hkey]; exact he)).1
        unfold Alive at this
        rw [ht.dead] at this
        cases this
      have hshows := Landing.page_shows (d := { d with jit := { d.jit with toOwnedCode := c } }) h
        (fits_of_landed hp hb False.elim ho hk) hpm
        ((congrFun ht.modules key).trans hkey) hne hon (hin.2 key hpm) hd1 hs hl
      rw [Option.elim_some]
      by_cases he : pageOf pc = key.2
      · rw [if_pos he] at hshows
        rw [if_pos ⟨hin.2 key hpm, he⟩]
        exact hshows
      · rw [if_neg he] at hshows
        rw [if_neg fun hn => he hn.2]
        exact hshows

end Dispatcher
end Lish
