import Lish.Jit.PageModules
/-!
# Asserts — the assertions on the maps of compiled code hold

A cached slot has an owner, a ticket becomes an owner once, and no slot has two: the dispatcher asserts it wherever it relies on it.
In every run whose slots are fresh and whose tickets do not run out no assertion fails, so that every operation returns.
-/
namespace Lish

namespace OwnedCode

variable {fresh : Prop} {c c' : OwnedCode} {f : ℤ → ℕ} {g : Gap} {o : JitOwnerId} {i : ℤ} {pc : U64} {entry : Option JitBlock}

/-! ## Dropping code -/

theorem Exact.foldlM_isSome {α : Type} {step : OwnedCode → α → Option OwnedCode}
    (hs : ∀ c a c', Exact fresh c.uses g c → step c a = some c' → Drops fresh g c c')
    (ht : ∀ c a, Exact fresh c.uses g c → (step c a).isSome) (l : List α) :
    ∀ {c : OwnedCode}, Exact fresh c.uses g c → (l.foldlM step c).isSome := by
  induction l with
  | nil => exact fun _ => rfl
  | cons a l ih =>
    intro c h
    obtain ⟨c1, h1⟩ := Option.isSome_iff_exists.1 (ht c a h)
    rw [List.foldlM_cons, h1]
    exact ih (hs c a c1 h h1).exact

theorem cacheRemove_isSome (evicted : Bool) (h : ∀ i, c.slotAt pc = some i → (c.slotOwner i).isSome) :
    (c.cacheRemoveWithReason pc evicted).isSome := by
  unfold OwnedCode.cacheRemoveWithReason
  cases hb : (c.cache pc).join with
  | none => rfl
  | some block =>
    dsimp only
    split
    · rename_i hidx
      obtain ⟨o, ho⟩ := Option.isSome_iff_exists.1 (h _ (slotAt_of_block hb hidx))
      change (Option.bind (c.slotOwner block.idx) _).isSome
      rw [ho]
      rfl
    · rfl

theorem Exact.dropCached_isSome (h : Exact fresh f g c) (pc : U64) : (c.dropCached pc).isSome := by
  unfold OwnedCode.dropCached
  rw [Option.isSome_map]
  exact cacheRemove_isSome false (h.owned pc)

theorem Exact.retireEntry_isSome (h : Exact fresh f g c) (pc : U64) (evicted : Bool) :
    (OwnedCode.retireEntry evicted c pc).isSome := by
  unfold OwnedCode.retireEntry
  rw [clearLineOf_eq]
  cases evicted with
  | true => exact cacheRemove_isSome true (h.owned pc)
  | false => exact cacheRemove_isSome false (h.owned pc)

theorem Exact.retireOwner_isSome (h : Exact fresh c.uses g c) (hg : g.line = none) (hgo : g.owner = none) (o : JitOwnerId)
    (evicted : Bool) :
    (c.retireOwner o evicted).isSome := by
  have hg1 : ({ g with owner := some o } : Gap).line = none := hg
  obtain ⟨c1, hc1⟩ := Option.isSome_iff_exists.1 (Exact.foldlM_isSome (fun c a c' hc hs => (Exact.retireEntry evicted hc hg1 hs).1)
    (fun c a hc => hc.retireEntry_isSome a evicted) ((c.ownerEntries o).getD [])
    (c := { c with ownerEntries := c.ownerEntries.remove o })
    (h.unlist o hgo))
  unfold OwnedCode.retireOwner
  dsimp only
  rw [hc1]
  rfl

theorem Exact.evictColdOwner_isSome (h : Exact fresh c.uses g c) (hg : g.line = none) (hgo : g.owner = none) :
    c.evictColdOwner.isSome := by
  unfold OwnedCode.evictColdOwner
  split
  · rfl
  · exact h.retireOwner_isSome hg hgo _ true

theorem Exact.retirePageModule_isSome (h : Exact fresh c.uses g c) (hg : g.line = none) (hgo : g.owner = none) (i : ℤ) :
    (c.retirePageModuleForSlot i).isSome := by
  unfold OwnedCode.retirePageModuleForSlot
  split
  · rfl
  · split
    · rfl
    · rw [Option.isSome_map]
      exact h.retireOwner_isSome hg hgo _ false

/-- A page module goes as a whole, or what is left of the code goes by itself. -/
theorem Exact.orElse_isSome {r : OwnedCode → Option OwnedCode} (h : Exact fresh c.uses g c) (hg : g.line = none)
    (hgo : g.owner = none)
    (i : ℤ) (hr : ∀ c, Exact fresh c.uses g c → (r c).isSome) :
    ((c.retirePageModuleForSlot i).bind fun s => if s.1 then some s.2 else r s.2).isSome := by
  obtain ⟨⟨b, c1⟩, h1⟩ := Option.isSome_iff_exists.1 (h.retirePageModule_isSome hg hgo i)
  rw [h1, Option.bind_some]
  split
  · rfl
  · exact hr c1 (h.retirePageModuleForSlot hg hgo h1).exact

theorem Exact.resolve_isSome (h : Exact fresh c.uses g c) (hg : g.line = none) (hgo : g.owner = none) (pc : U64) (mapped : Bool)
    (gen : U32) :
    (c.resolve pc mapped gen).isSome := by
  unfold OwnedCode.resolve
  split
  · rfl
  · split
    · rfl
    · refine h.orElse_isSome (r := fun c => (c.cacheRemove pc).map fun c => c.clearLine pc) hg hgo _ fun c hc => ?_
      rw [Option.isSome_map]
      exact cacheRemove_isSome false (hc.owned pc)

theorem Exact.extendInline_isSome (h : Exact fresh f g c) (pc : U64) : (c.extendInline pc).isSome := by
  unfold OwnedCode.extendInline
  rw [Option.isSome_map]
  exact cacheRemove_isSome false (h.owned pc)

theorem Exact.dropBailing_isSome (h : Exact fresh c.uses g c) (hg : g.line = none) (hgo : g.owner = none) (pc : U64) :
    (c.dropBailing pc).isSome := by
  unfold OwnedCode.dropBailing
  split
  · exact h.dropCached_isSome pc
  · exact h.orElse_isSome hg hgo _ fun c hc => hc.dropCached_isSome pc

theorem Exact.demoteEntries_isSome (h : Exact fresh c.uses g c) (hg : g.line = none) (i : ℤ) (l : List U64) :
    (c.demoteEntries i l).isSome := by
  unfold OwnedCode.demoteEntries
  rw [Option.isSome_map]
  refine Exact.foldlM_isSome (fun c a c' hc hs => (hc.demoteEntry hg hs).1) (fun c a hc => ?_) l (h.dropExits i)
  unfold OwnedCode.demoteEntry
  split
  · exact hc.dropCached_isSome a
  · rfl

/-! ## Installing code -/

theorem ownerOf_isSome {s : Option ℤ} (h : ∀ i, s = some i → (c.slotOwner i).isSome) : (c.ownerOf s).isSome := by
  cases s with
  | none => rfl
  | some i =>
    unfold OwnedCode.ownerOf
    dsimp only
    rw [Option.isSome_map]
    exact h i rfl

theorem cacheInsert_isSome (h : ∀ i, c.slotAt pc = some i → (c.slotOwner i).isSome)
    (hs : ∀ i, entrySlot entry = some i → (c.slotOwner i).isSome) :
    (c.cacheInsert pc entry).isSome := by
  unfold OwnedCode.cacheInsert
  obtain ⟨old, ho⟩ := Option.isSome_iff_exists.1
    (ownerOf_isSome (c := c) (s := entrySlot (c.cache pc).join) fun i hi => h i (by rw [slotAt_join, hi]))
  obtain ⟨new, hn⟩ := Option.isSome_iff_exists.1 (ownerOf_isSome hs)
  rw [filterEntry]
  dsimp only
  have hsame : ∀ s ef, ({ c with entryFilter := ef } : OwnedCode).ownerOf s = c.ownerOf s := fun _ _ => rfl
  rw [hsame (entrySlot (c.cache pc).join), ho]
  rw [hsame (entrySlot entry), hn]
  rfl

theorem retireOwnedSlot_owner {j : ℤ} (h : j ≠ i) (evicted : Bool) : (c.retireOwnedSlot i evicted).slotOwner j = c.slotOwner j := by
  have hrem : (c.slotOwner.remove i) j = c.slotOwner j := HashMap.remove_of_ne h
  unfold OwnedCode.retireOwnedSlot OwnedCode.retireTableSlot OwnedCode.forgetOwner
  dsimp only
  repeat' split
  all_goals first | rfl | exact hrem

theorem releaseSlot_owner {j : ℤ} (h : j ≠ i) (evicted : Bool) : (c.releaseSlot i evicted).slotOwner j = c.slotOwner j := by
  unfold OwnedCode.releaseSlot
  split
  · rfl
  · split
    · rfl
    · exact retireOwnedSlot_owner h evicted

theorem moveRef_owner {old new : Option ℤ} (h : old = some i → new = some i) : (c.moveRef old new).slotOwner i = c.slotOwner i := by
  unfold OwnedCode.moveRef
  split
  · rfl
  · rename_i hne
    cases old with
    | none => cases new <;> rfl
    | some k =>
      have hk : i ≠ k := fun he => hne (by rw [h (by rw [he]), he])
      cases new <;> exact releaseSlot_owner hk false

/-- An entry that comes leaves the owner of a slot, unless it takes a place where the slot runs. -/
theorem cacheInsert_owner (hr : c.cacheInsert pc entry = some c') (hi : c.slotAt pc = some i → entrySlot entry = some i) :
    c'.slotOwner i = c.slotOwner i := by
  obtain ⟨ef, a, b, -, -, rfl⟩ := cacheInsert_eq hr
  rw [moveRef_owner hi, stampEntry_eq]

end OwnedCode

namespace JitState

open OwnedCode

variable {fresh : Prop} {j j' : JitState} {g : Gap} {o : JitOwnerId} {i : ℤ} {pc : U64} {settings : JitSettings}

theorem install_isSome {block : JitBlock} (h : ∀ i, j.slotAt pc = some i → (j.slotOwner i).isSome)
    (hs : 0 ≤ block.idx → (j.slotOwner block.idx).isSome) : (j.install pc block).isSome := by
  unfold JitState.install
  rw [Option.isSome_map]
  refine cacheInsert_isSome h fun i hi => ?_
  obtain ⟨b, hb, rfl, h0⟩ := entrySlot_eq_some.1 hi
  cases hb
  exact hs h0

theorem install_owner {block : JitBlock} (hr : j.install pc block = some j')
    (hi : j.slotAt pc = some i → entrySlot (some block) = some i) :
    j'.slotOwner i = j.slotOwner i := by
  obtain ⟨c, hc, hr⟩ := Option.map_eq_some_iff.1 hr
  have ho := cacheInsert_owner hc hi
  rw [← hr]
  dsimp only
  rwa [clearLineOf_eq]

theorem landBlock_same (settings : JitSettings) (i : ℤ) (j : JitState) (p : PendingBlock) :
    ((j.stamp.recordPages i p.pages).addSeeds settings p).cache = j.cache ∧
      ((j.stamp.recordPages i p.pages).addSeeds settings p).slotOwner = j.slotOwner := by
  rw [addSeeds_code]
  obtain ⟨hc, ho, -⟩ := recordPages_same j.stamp i p.pages
  exact ⟨hc, ho⟩

theorem Exact.landBlock_isSome {p : PendingBlock} {f : ℤ → ℕ} (h : Exact fresh f g j.toOwnedCode)
    (hs : 0 ≤ i → (j.slotOwner i).isSome) :
    (j.landBlock settings i p).isSome := by
  obtain ⟨hc, ho⟩ := landBlock_same settings i j p
  unfold JitState.landBlock
  refine install_isSome (fun k hk => ?_) fun h0 => ?_
  · rw [ho]
    refine h.owned p.pc k ?_
    unfold OwnedCode.slotAt at hk ⊢
    rwa [hc] at hk
  · rw [ho]
    exact hs h0

/-- A block that lands leaves the owner of its slot, and of those that do not run at its pc. -/
theorem landBlock_owner {p : PendingBlock} {k : ℤ} (hr : j.landBlock settings i p = some j')
    (hk : j.slotAt p.pc = some k → 0 ≤ i ∧ i = k) :
    j'.slotOwner k = j.slotOwner k := by
  obtain ⟨hc, ho⟩ := landBlock_same settings i j p
  rw [← ho]
  refine install_owner hr fun hs => ?_
  unfold OwnedCode.slotAt at hs hk
  rw [hc] at hs
  obtain ⟨h0, rfl⟩ := hk hs
  exact entrySlot_eq_some.2 ⟨_, rfl, rfl, h0⟩

theorem Exact.completeBlockLanding_isSome {M : Type} [FullSystemJitMachine M] {m : M} {p : PendingBlock} {f : ℤ → ℕ}
    (h : Exact fresh f g j.toOwnedCode)
    (hs : 0 ≤ i → (j.slotOwner i).isSome) : (j.completeBlockLanding settings m i p).isSome := by
  unfold JitState.completeBlockLanding
  split
  · rfl
  · split
    · rfl
    · rw [Option.isSome_map]
      exact Exact.landBlock_isSome h hs

theorem landMember_isSome (settings : JitSettings) (pageModule : Bool) (p : PendingBlock) {f : ℤ → ℕ}
    (h : Exact fresh f g j.toOwnedCode)
    (hs : 0 ≤ i → (j.slotOwner i).isSome) : (j.landMember settings pageModule i p).isSome := by
  unfold JitState.landMember
  split
  · rfl
  · split
    · rfl
    · exact Exact.landBlock_isSome h hs

theorem landMember_owner {pageModule : Bool} {p : PendingBlock} {k : ℤ} (hr : j.landMember settings pageModule i p = some j')
    (hk : j.slotAt p.pc = some k → 0 ≤ i ∧ i = k) : j'.slotOwner k = j.slotOwner k := by
  unfold JitState.landMember at hr
  split at hr
  · cases hr
    rfl
  · split at hr
    · cases hr
      rfl
    · exact landBlock_owner hr hk

theorem landMember_lands {pageModule : Bool} {p : PendingBlock} (h : Exact False j.uses g j.toOwnedCode) (hg : Gap.Landing g)
    (hx : j.regionExits i = none) (hr : j.landMember settings pageModule i p = some j') :
    Lands False g j.toOwnedCode j'.toOwnedCode ∧ ∀ pc k, j'.slotAt pc = some k → j.slotAt pc = some k ∨ k = i := by
  unfold JitState.landMember at hr
  split at hr
  · cases hr
    exact ⟨Exact.lands_refl h, fun _ _ => .inl⟩
  · split at hr
    · cases hr
      exact ⟨Exact.lands_refl h, fun _ _ => .inl⟩
    · obtain ⟨hl, stamp, hc⟩ := Exact.landBlock h hg False.elim (fun hf => hf.elim) (fun _ => hx) hr
      refine ⟨hl, fun pc k hs => ?_⟩
      rw [slotAt_landed hc rfl] at hs
      split at hs
      · split at hs
        · exact .inr (Option.some.inj hs).symm
        · cases hs
      · exact .inl hs

/-- The members of a module whose slots are owned: those of a page module share a slot, others have slots of their own that are unused. -/
structure Roomy (pageModule : Bool) (base : ℤ) (k n : ℕ) (c : OwnedCode) : Prop where
  owned : ∀ a, k ≤ a → a < k + n → 0 ≤ memberSlot pageModule base a ∧ (c.slotOwner (memberSlot pageModule base a)).isSome
  noExits : ∀ a, k ≤ a → a < k + n → c.regionExits (memberSlot pageModule base a) = none
  unused : pageModule = false → ∀ a, k ≤ a → a < k + n → ∀ pc, c.slotAt pc ≠ some (memberSlot pageModule base a)
  apart : pageModule = false → ∀ a b, a < b → b < k + n → memberSlot pageModule base a ≠ memberSlot pageModule base b

/-- One member takes its slot, and leaves room for the others. -/
theorem Roomy.landMember {pageModule : Bool} {base : ℤ} {k n : ℕ} {p : PendingBlock}
    (hr : Roomy pageModule base k (n + 1) j.toOwnedCode)
    (h : Exact False j.uses g j.toOwnedCode) (hg : Gap.Landing g)
    (hl : j.landMember settings pageModule (memberSlot pageModule base k) p = some j') :
    Exact False j'.uses g j'.toOwnedCode ∧ Roomy pageModule base (k + 1) n j'.toOwnedCode := by
  obtain ⟨h0, ho⟩ := hr.owned k le_rfl (by omega)
  obtain ⟨hlands, hslot⟩ := landMember_lands h hg (hr.noExits k le_rfl (by omega)) hl
  refine ⟨hlands.exact, ⟨fun a ha hb => ?_, fun a ha hb => ?_, fun hpm a ha hb pc hs => ?_, fun hpm a b hab hb => hr.apart hpm a b hab (by omega)⟩⟩
  · obtain ⟨h1, h2⟩ := hr.owned a (by omega) (by omega)
    rw [landMember_owner hl fun hs => ?_]
    · exact ⟨h1, h2⟩
    · cases hpm : pageModule with
      | true => exact ⟨hpm ▸ h0, rfl⟩
      | false => exact absurd hs (hr.unused hpm a (by omega) (by omega) p.pc)
  · rcases hlands.exits (memberSlot pageModule base a) with he | he
    · exact he
    · rw [he]
      exact hr.noExits a (by omega) (by omega)
  · rcases hslot pc _ hs with he | he
    · exact hr.unused hpm a (by omega) (by omega) pc he
    · exact hr.apart hpm k a (by omega) (by omega) he.symm

theorem Roomy.members_isSome (settings : JitSettings) {pageModule : Bool} {base : ℤ} (hg : Gap.Landing g) (l : List PendingBlock) :
    ∀ (k : ℕ) {j : JitState}, Exact False j.uses g j.toOwnedCode → Roomy pageModule base k l.length j.toOwnedCode →
      ((l.zipIdx k).foldlM (fun (j : JitState) m => j.landMember settings pageModule (memberSlot pageModule base m.2) m.1) j).isSome := by
  induction l with
  | nil => exact fun _ _ _ _ => rfl
  | cons p l ih =>
    intro k j h hr
    obtain ⟨h0, ho⟩ := hr.owned k le_rfl (by simp)
    obtain ⟨j1, h1⟩ := Option.isSome_iff_exists.1 (landMember_isSome settings pageModule p h fun _ => ho)
    obtain ⟨he, hr'⟩ := Roomy.landMember (n := l.length) hr h hg h1
    rw [List.zipIdx_cons, List.foldlM_cons]
    dsimp only
    rw [h1]
    exact ih (k + 1) he hr'

theorem landEntry_isSome (settings : JitSettings) (p : PendingRegion) (e : U64) {f : ℤ → ℕ} (h : Exact fresh f g j.toOwnedCode)
    (hs : (j.slotOwner i).isSome) :
    (landEntry settings i p j e).isSome := by
  unfold JitState.landEntry
  split
  · rfl
  · split
    · rfl
    · split
      · rfl
      · exact install_isSome (h.owned e) fun _ => hs

theorem landEntry_owner {p : PendingRegion} {e : U64} (h0 : 0 ≤ i) (hr : landEntry settings i p j e = some j') :
    j'.slotOwner i = j.slotOwner i := by
  unfold JitState.landEntry at hr
  split at hr
  · cases hr
    rfl
  · split at hr
    · cases hr
      rfl
    · split at hr
      · cases hr
        rfl
      · exact install_owner (j := j.stamp) hr fun _ => entrySlot_eq_some.2 ⟨_, rfl, rfl, h0⟩

theorem landEntries_isSome {p : PendingRegion} (hg : Gap.Landing g) (h0 : 0 ≤ i) (l : List U64) :
    ∀ {j : JitState}, Exact fresh j.uses g j.toOwnedCode → (∀ r, j.regionExits i = some r → r.entries = p.entries) →
      (∀ e ∈ l, e ∈ p.entries) →
      (j.slotOwner i).isSome → (l.foldlM (landEntry settings i p) j).isSome := by
  induction l with
  | nil => exact fun _ _ _ _ => rfl
  | cons e l ih =>
    intro j h hx hl hs
    obtain ⟨j1, h1⟩ := Option.isSome_iff_exists.1 (landEntry_isSome settings p e h hs)
    have hle := Exact.landEntry h hg hx (hl e List.mem_cons_self) h1
    rw [List.foldlM_cons, h1]
    refine ih hle.exact (fun r hr => ?_) (fun e' he' => hl e' (List.mem_cons_of_mem e he'))
      (by rw [landEntry_owner h0 h1]; exact hs)
    rcases hle.exits i with he | he
    · rw [he] at hr
      cases hr
    · rw [he] at hr
      exact hx r hr

end JitState

namespace Dispatcher

open OwnedCode JitState

variable {M : Type} [FullSystemJitMachine M] {fresh : Prop} {d d' : Dispatcher} {j : JitState} {c c' : OwnedCode} {o : JitOwnerId}
  {base : ℤ} {n : ℕ}

/-! ## Completions -/

theorem trackSlots_isSome (l : List ℤ) (hn : l.Nodup) : ∀ {c : OwnedCode}, (∀ i ∈ l, c.slotOwner i = none) →
    (l.foldlM (trackSlot o) c).isSome := by
  induction l with
  | nil => exact fun _ => rfl
  | cons i l ih =>
    obtain ⟨hi, hl⟩ := List.nodup_cons.1 hn
    intro c h
    have hfree : ¬(c.slotOwner i).isSome := by
      rw [h i List.mem_cons_self]
      exact Bool.false_ne_true
    rw [List.foldlM_cons]
    unfold trackSlot
    rw [if_neg hfree]
    refine ih hl fun k hk => ?_
    change c.slotOwner.insert i o k = none
    rw [HashMap.insert_of_ne fun he : k = i => hi (he ▸ hk)]
    exact h k (List.mem_cons_of_mem i hk)

theorem slotsFrom_eq (base : ℤ) (n : ℕ) : slotsFrom base n = (List.range n).map fun k : ℕ => wrapI32 (base + k) := by
  unfold slotsFrom
  rw [List.bind_eq_flatMap, List.map_flatMap]
  exact List.flatMap_pure_eq_map _ _

/-- A new owner of slots that are not in use. -/
theorem trackOwner_isSome (h : Exact True c.uses .closed c) (ho : ¬c.Alive o) (h0 : 0 ≤ base) (hn : 0 < n)
    (hf : FreshSlots c base n) :
    (c.trackOwner o (slotsFrom base n)).isSome := by
  have hslots : (slotsFrom base n).filter (0 ≤ ·) = slotsFrom base n := by
    rw [List.filter_eq_self]
    intro i hi
    obtain ⟨k, hk, rfl⟩ := mem_slotsFrom.1 hi
    have := hf.1
    rw [wrapI32_of_lt (by omega) (by omega)]
    exact decide_eq_true (by omega)
  have hnodup : (slotsFrom base n).Nodup := by
    rw [slotsFrom_eq]
    refine List.Nodup.map_on (fun a ha b hb he => ?_) List.nodup_range
    have := hf.1
    have := List.mem_range.1 ha
    have := List.mem_range.1 hb
    rw [wrapI32_of_lt (by omega) (by omega), wrapI32_of_lt (by omega) (by omega)] at he
    omega
  have hfree : ∀ i ∈ slotsFrom base n, c.slotOwner i = none := fun i hi => by
    have hl := hf.2 i ((mem_slots_iff h0 hf.1 i).1 (by rw [hslots]; exact hi))
    by_contra hso
    rw [(h.live trivial i).2 (Option.isSome_iff_ne_none.2 hso)] at hl
    cases hl
  obtain ⟨c1, hc1⟩ := Option.isSome_iff_exists.1 (trackSlots_isSome (o := o) _ hnodup hfree)
  have hne : slotsFrom base n ≠ [] := by
    rw [slotsFrom_eq, Ne, List.map_eq_nil_iff, List.range_eq_nil]
    omega
  unfold OwnedCode.trackOwner
  dsimp only
  rw [hslots, if_neg fun hor => hor.elim hne ho, hc1]
  rfl

theorem retirePrior_isSome {prior : Option JitOwnerId}
    (h : Exact fresh j.uses { Gap.closed with prior := prior, landing := some o } j.toOwnedCode) :
    (retirePrior j prior o).isSome := by
  unfold retirePrior
  split
  · rfl
  · split
    · rfl
    · rw [Option.isSome_map]
      exact h.retireOwner_isSome rfl rfl _ false

/-- The slots of a module that has just been registered have room for its members. -/
theorem Landing.roomy {batch : PendingBatch} (h : Landing False o base n c) (hf : Fits False base n batch)
    (hroom : base + n ≤ 2 ^ 31) :
    Roomy batch.pageModule.isSome base 0 batch.members.length c := by
  have hslot : ∀ k < n, 0 ≤ wrapI32 (base + k) := fun k hk => by
    have := hf.nonneg
    rw [wrapI32_of_lt (by omega) (by omega)]
    omega
  refine ⟨fun a _ ha => ?_, fun a _ ha => ?_, fun _ a _ ha pc => ?_, fun hpm a b hab hb => ?_⟩
  · obtain ⟨k, hk, he⟩ := hf.memberSlot (by omega : a < batch.members.length)
    rw [he, h.owned k hk (hslot k hk)]
    exact ⟨hslot k hk, rfl⟩
  · obtain ⟨k, hk, he⟩ := hf.memberSlot (by omega : a < batch.members.length)
    rw [he]
    exact h.noExits k hk (hslot k hk)
  · obtain ⟨k, hk, he⟩ := hf.memberSlot (by omega : a < batch.members.length)
    rw [he]
    exact h.unused k hk pc
  · have hlen := hf.count
    rw [hpm, if_neg Bool.false_ne_true] at hlen
    have := hf.nonneg
    rw [hpm]
    change wrapI32 (base + a) ≠ wrapI32 (base + b)
    rw [wrapI32_of_lt (by omega) (by omega), wrapI32_of_lt (by omega) (by omega)]
    omega

theorem landBatch_isSome {batch : PendingBatch} (h : Landing False o base n d.jit.toOwnedCode) (hf : Fits False base n batch)
    (hroom : base + n ≤ 2 ^ 31)
    (hk : ∀ key, batch.pageModule = some key → ∃ source prior, d.jit.pageModules key = some (.pending source o prior)) :
    (d.landBatch o base batch).isSome := by
  have hroomy := h.roomy hf hroom
  cases hpm : batch.pageModule with
  | none =>
    obtain ⟨j1, h1⟩ := Option.isSome_iff_exists.1 (Roomy.members_isSome d.settings ⟨rfl, rfl, rfl⟩ batch.members 0 h.exact hroomy)
    unfold landBatch finishPendingPageModule completeBatchLanding
    rw [hpm] at h1 ⊢
    dsimp only
    rw [h1]
    rfl
  | some key =>
    obtain ⟨source, prior, hkey⟩ := hk key hpm
    have htaken := h.pageTaken hkey (sortDedup (batch.members.map PendingBlock.pc))
    obtain ⟨j0, hj0⟩ : ∃ j0 : JitState, j0 =
        { d.jit with toOwnedCode := Dispatcher.pageTaken d.jit.toOwnedCode key source o (sortDedup (batch.members.map PendingBlock.pc)) } := ⟨_, rfl⟩
    have hex : Exact False j0.uses
      { Gap.closed with prior := prior.map LivePageModule.owner, landing := some o } j0.toOwnedCode := by
      rw [hj0]
      exact htaken
    have hroomy0 : Roomy batch.pageModule.isSome base 0 batch.members.length j0.toOwnedCode := by
      rw [hj0]
      exact ⟨hroomy.owned, hroomy.noExits, hroomy.unused, hroomy.apart⟩
    obtain ⟨j1, h1⟩ := Option.isSome_iff_exists.1 (Roomy.members_isSome d.settings ⟨rfl, rfl, rfl⟩ batch.members 0 hex hroomy0)
    have hl := (hf.lands (j := j0) ⟨rfl, rfl, rfl⟩ hex (by rw [hj0]; exact h.unused) (by rw [hj0]; exact h.noExits) h1).1
    obtain ⟨j2, h2⟩ := Option.isSome_iff_exists.1 (retirePrior_isSome hl.exact)
    unfold landBatch finishPendingPageModule
    rw [hpm]
    dsimp only
    rw [hkey]
    dsimp only
    rw [if_neg fun hn => hn rfl]
    refine Option.isSome_iff_exists.2 ⟨publishBase { d with jit := j2 } base batch, ?_⟩
    refine Option.bind_eq_some_iff.2 ⟨j1, ?_, Option.bind_eq_some_iff.2 ⟨j2, h2, rfl⟩⟩
    rw [hj0] at h1
    exact h1

theorem land_isSome {m : M} {p : PendingJit} (h : Landing False p.ticket base n c)
    (ht : Tracked d.jit.toOwnedCode p.ticket ((slotsFrom base n).filter (0 ≤ ·)) c) (hp : p.Proper) (hpos : 0 < n)
    (hroom : base + n ≤ 2 ^ 31) (ho : d.outcome m p base n = .landed) :
    (land { d with jit := { d.jit with toOwnedCode := c } } m p base).isSome := by
  obtain ⟨hn, h0, hcur⟩ := current_of_landed ho
  unfold PendingJit.slotCount at hn
  unfold land
  cases hk : p.kind with
  | block block =>
    rw [hk] at hn
    dsimp only at hn ⊢
    rw [Option.isSome_map]
    obtain ⟨hown, -, -⟩ := h.first (by omega) h0 (by omega)
    exact Exact.completeBlockLanding_isSome (j := { d.jit with toOwnedCode := c }) h.exact fun _ => Option.isSome_iff_exists.2
      ⟨_, hown⟩
  | region region =>
    rw [hk] at hn
    dsimp only at hn ⊢
    rw [Option.isSome_map, completeRegionLanding_eq]
    obtain ⟨hown, hu, -⟩ := h.first (by omega) h0 (by omega)
    have hcode := finishSuperblock_code p.ticket region.aspace true region.pages { d.jit with toOwnedCode := c }
    have hsome := Option.isSome_iff_exists.2 ⟨_, hown⟩
    obtain ⟨h1, -, -⟩ := Exact.recordRegion
      (j := finishPendingSuperblock { d.jit with toOwnedCode := c } p.ticket region.aspace region.pages true)
      (i := base) (p := region) (by rw [hcode]; exact h.exact) (by rw [hcode]; exact hsome) (by rw [hcode]; exact hu)
    refine landEntries_isSome ⟨rfl, rfl, rfl⟩ h0 region.entries h1 (fun r hr => recordRegion_exits _ base region hr)
      (fun e he => he) ?_
    change ((recordPages _ base region.pages).slotOwner base).isSome
    rw [(recordPages_same _ base region.pages).2.1, hcode]
    exact hsome
  | batch batch =>
    dsimp only
    rw [Option.isSome_map]
    refine landBatch_isSome (d := { d with jit := { d.jit with toOwnedCode := c } }) h
      (fits_of_landed hp (by omega) False.elim ho hk) hroom
      fun key hkey => ?_
    obtain ⟨source, prior, hs⟩ := hcur batch key hk hkey
    exact ⟨source, prior, (congrFun ht.modules key).trans hs⟩

/-- **Every end of a compile returns**, if its ticket is no owner yet. -/
theorem settle_isSome {m : M} {p : PendingJit} (h : Exact True d.jit.uses .closed d.jit.toOwnedCode) (hp : p.Proper)
    (ho : ¬d.jit.Alive p.ticket)
    (hn : 0 < n) (hf : FreshSlots d.jit.toOwnedCode base n) : (d.settle m p base n).isSome := by
  unfold settle
  cases hout : d.outcome m p base n with
  | wrongSlotCount => rfl
  | superseded => rfl
  | failed => rfl
  | capacity =>
    have hrel := released_exact h p .cancelled fun o hn => nomatch hn
    dsimp only
    unfold handleJitCapacity
    rw [Option.isSome_map, Option.isSome_map]
    exact hrel.evictColdOwner_isSome rfl rfl
  | stale =>
    obtain ⟨c, hc⟩ := Option.isSome_iff_exists.1 (trackOwner_isSome h ho (nonneg_of_stale hout) hn hf)
    dsimp only
    rw [hc]
    rfl
  | landed =>
    obtain ⟨-, h0, -⟩ := current_of_landed hout
    obtain ⟨c, hc⟩ := Option.isSome_iff_exists.1 (trackOwner_isSome h ho h0 hn hf)
    obtain ⟨hland, ht⟩ := Landing.of_track (Exact.weaken h) rfl hc
    obtain ⟨s, hs⟩ := Option.isSome_iff_exists.1 (land_isSome hland ht hp hn hf.1 hout)
    dsimp only
    rw [hc, Option.bind_eq_bind, Option.bind_some, hs]
    rfl

/-- Every completion returns, if the ticket it is for is no owner yet. -/
theorem completeJit_isSome (m : M) (ticket : U64) (h : Exact True d.jit.uses .closed d.jit.toOwnedCode)
    (hp : ∀ p ∈ d.pendingJit, p.Proper)
    (ho : ∀ p ∈ d.pendingJit, ¬d.jit.Alive p.ticket) (hn : 0 < n) (hf : FreshSlots d.jit.toOwnedCode base n) :
    (d.completeJit m ticket base n).isSome := by
  unfold completeJit
  cases hfind : d.findPending ticket with
  | none => rfl
  | some s =>
    obtain ⟨pos, p⟩ := s
    have hmem := (findPending_some hfind).2.subset List.mem_cons_self
    have hcode : (d.take pos p).jit.toOwnedCode = d.jit.toOwnedCode := removePendingCoverage_code d.jit p.kind
    refine settle_isSome (d := d.take pos p) ?_ (hp p hmem) ?_ hn ?_ <;> rw [hcode]
    · exact h
    · exact ho p hmem
    · exact hf

/-! ## Tickets -/

/-- A compile that lands makes no other owner, and gives none a slot. -/
theorem land_owners {m m' : M} {p : PendingJit} (h : Landing fresh p.ticket base n c)
    (hd : Exact fresh d.jit.uses .closed d.jit.toOwnedCode)
    (ht : Tracked d.jit.toOwnedCode p.ticket ((slotsFrom base n).filter (0 ≤ ·)) c) (hp : p.Proper) (hb : base < 2 ^ 31)
    (hf : fresh → base + n ≤ 2 ^ 31) (ho : d.outcome m p base n = .landed)
    (hr : land { d with jit := { d.jit with toOwnedCode := c } } m p base = some (m', d')) :
    (∀ q, d'.jit.Alive q → c.Alive q) ∧ ∀ i q, d'.jit.slotOwner i = some q → c.slotOwner i = some q := by
  cases hk : p.kind with
  | region region =>
    have hgo := (land_region h hb ho hk hr).2
    exact ⟨hgo.alive, hgo.owner⟩
  | block block =>
    have hgo := (land_block h hb ho hk hr).2
    exact ⟨hgo.alive, hgo.owner⟩
  | batch batch =>
    cases hpm : batch.pageModule with
    | none =>
      have hgo := (land_members h hp hb hf ho hk hpm hr).2
      exact ⟨hgo.alive, hgo.owner⟩
    | some key =>
      obtain ⟨source, prior, -, hres⟩ := land_page h hd ht hp hb hf ho hk hpm hr
      exact ⟨hres.owners.alive, hres.owners.owner⟩

/-- The end of a compile makes no other owner than its ticket. -/
theorem settle_alive {m m' : M} {p : PendingJit} (h : Exact fresh d.jit.uses .closed d.jit.toOwnedCode) (hp : p.Proper)
    (hb : InRange base)
    (hf : fresh → base + n ≤ 2 ^ 31) (hr : d.settle m p base n = some (m', d')) {q : JitOwnerId} (hq : d'.jit.Alive q) :
    d.jit.Alive q ∨ q = p.ticket := by
  have hgiven (j : JitState) (finish : PageModuleFinish) :
    (finishBatch (releaseRegion j p) p finish).ownerSlots = j.ownerSlots := by
    rw [finishBatch_owners, releaseRegion_code]
  unfold Alive at hq ⊢
  unfold settle at hr
  cases ho : d.outcome m p base n <;> rw [ho] at hr
  case wrongSlotCount =>
    cases hr
    left
    rwa [(dropSlots_same _ base n).2.2.1, finishBatch_owners] at hq
  case superseded =>
    cases hr
    left
    rwa [(dropSlots_same _ base n).2.2.1, hgiven] at hq
  case capacity =>
    obtain ⟨d1, hd1, hr⟩ := Option.map_eq_some_iff.1 hr
    cases hr
    obtain ⟨c, hc, hd1⟩ := Option.map_eq_some_iff.1 hd1
    cases hd1
    have hd := (released_exact h p .cancelled fun o hn => nomatch hn).evictColdOwner rfl rfl hc
    have := hd.owners.alive q hq
    unfold Alive at this
    left
    rwa [hgiven] at this
  case failed =>
    cases hr
    left
    rwa [hgiven] at hq
  case stale =>
    obtain ⟨c, hc, hr⟩ := Option.bind_eq_some_iff.1 hr
    cases hr
    obtain ⟨hland, ht⟩ := Landing.of_track h rfl hc
    have hrel := released_exact (j := { d.jit with toOwnedCode := c }) hland.exact p .cancelled fun o hn => nomatch hn
    have := (retireUnreferenced_exact hrel).owners.alive q hq
    unfold Alive at this
    rw [hgiven] at this
    exact (ht.alive.1 this).symm
  case landed =>
    obtain ⟨c, hc, hr⟩ := Option.bind_eq_some_iff.1 hr
    obtain ⟨⟨m1, d1⟩, hl, hr⟩ := Option.bind_eq_some_iff.1 hr
    cases hr
    obtain ⟨hland, ht⟩ := Landing.of_track h rfl hc
    have he := (land_exact hland h ht hp hb.2 hf ho hl).1
    have hq1 := (retireUnreferenced_exact he).owners.alive q hq
    exact (ht.alive.1 ((land_owners hland h ht hp hb.2 hf ho hl).1 q hq1)).symm

/-- What the end of a compile leaves as it was. -/
structure SameClock (d d' : Dispatcher) : Prop where
  next : d'.nextJitTicket = d.nextJitTicket
  boot : d'.bootGen = d.bootGen
  settings : d'.settings = d.settings

theorem land_clock {m m' : M} {p : PendingJit} (hr : d.land m p base = some (m', d')) : SameClock d d' := by
  unfold land at hr
  split at hr
  · obtain ⟨j, -, hr⟩ := Option.map_eq_some_iff.1 hr
    cases hr
    exact ⟨rfl, rfl, rfl⟩
  · obtain ⟨s, -, hr⟩ := Option.map_eq_some_iff.1 hr
    cases hr
    exact ⟨rfl, rfl, rfl⟩
  · obtain ⟨d1, hd1, hr⟩ := Option.map_eq_some_iff.1 hr
    cases hr
    unfold landBatch publishBase at hd1
    obtain ⟨j1, -, hd1⟩ := Option.bind_eq_some_iff.1 hd1
    obtain ⟨j2, -, hd1⟩ := Option.bind_eq_some_iff.1 hd1
    rw [← Option.some.inj hd1]
    split <;> exact ⟨rfl, rfl, rfl⟩

theorem settle_clock {m m' : M} {p : PendingJit} (hr : d.settle m p base n = some (m', d')) : SameClock d d' := by
  unfold settle at hr
  split at hr
  · cases hr
    exact ⟨rfl, rfl, rfl⟩
  · cases hr
    exact ⟨rfl, rfl, rfl⟩
  · obtain ⟨d1, hd1, hr⟩ := Option.map_eq_some_iff.1 hr
    cases hr
    obtain ⟨c, -, hd1⟩ := Option.map_eq_some_iff.1 hd1
    cases hd1
    exact ⟨rfl, rfl, rfl⟩
  · cases hr
    exact ⟨rfl, rfl, rfl⟩
  · obtain ⟨c, -, hr⟩ := Option.bind_eq_some_iff.1 hr
    cases hr
    exact ⟨rfl, rfl, rfl⟩
  · obtain ⟨c, -, hr⟩ := Option.bind_eq_some_iff.1 hr
    obtain ⟨⟨m1, d1⟩, hl, hr⟩ := Option.bind_eq_some_iff.1 hr
    cases hr
    have h := land_clock hl
    exact ⟨h.next, h.boot, h.settings⟩

/-- Tickets go out in order: what waits and what is an owner has had one, and what waits is no owner. -/
structure Numbered (d : Dispatcher) : Prop where
  pending : ∀ p ∈ d.pendingJit, p.ticket.toNat < d.nextJitTicket.toNat
  owners : ∀ o, d.jit.Alive o → o.toNat < d.nextJitTicket.toNat
  nodup : (d.pendingJit.map PendingJit.ticket).Nodup
  apart : ∀ p ∈ d.pendingJit, ¬d.jit.Alive p.ticket

theorem numbered_new (settings : JitSettings) : Numbered (Dispatcher.new settings) where
  pending _ hp := absurd hp List.not_mem_nil
  owners _ ho := absurd ho Bool.false_ne_true
  nodup := List.nodup_nil
  apart _ hp := absurd hp List.not_mem_nil

/-- No compile comes and no owner. -/
theorem Numbered.fewer (h : Numbered d) (hp : d'.pendingJit.Sublist d.pendingJit) (hn : d'.nextJitTicket = d.nextJitTicket)
    (ha : ∀ o, d'.jit.Alive o → d.jit.Alive o) : Numbered d' where
  pending p hmem := by
    rw [hn]
    exact h.pending p (hp.subset hmem)
  owners o ho := by
    rw [hn]
    exact h.owners o (ha o ho)
  nodup := (hp.map _).nodup h.nodup
  apart p hmem ho := h.apart p (hp.subset hmem) (ha _ ho)

/-- One compile more, under the next ticket. -/
theorem Numbered.issue {bootGen : U64} {kind : PendingJitKind} (h : Numbered d) (hlast : d.nextJitTicket.toNat + 1 < 2 ^ 64)
    (hp : d'.pendingJit = d.pendingJit ++ [⟨d.nextJitTicket, bootGen, kind⟩]) (hn : d'.nextJitTicket = d.nextJitTicket + 1)
    (ha : ∀ o, d'.jit.Alive o → d.jit.Alive o) : Numbered d' := by
  have hnext : d'.nextJitTicket.toNat = d.nextJitTicket.toNat + 1 := by
    rw [hn, BitVec.toNat_add]
    exact Nat.mod_eq_of_lt hlast
  refine ⟨fun p hmem => ?_, fun o ho => ?_, ?_, fun p hmem ho => ?_⟩
  · rw [hp, List.mem_append, List.mem_singleton] at hmem
    rcases hmem with hmem | rfl
    · have := h.pending p hmem
      omega
    · change d.nextJitTicket.toNat < _
      omega
  · have := h.owners o (ha o ho)
    omega
  · rw [hp]
    refine nodup_append_ticket h.nodup fun q hq he => ?_
    have := h.pending q hq
    rw [he] at this
    exact lt_irrefl _ this
  · rw [hp, List.mem_append, List.mem_singleton] at hmem
    rcases hmem with hmem | rfl
    · exact h.apart p hmem (ha _ ho)
    · exact absurd (h.owners _ (ha _ ho)) (lt_irrefl _)

/-- What a step other than a completion does to the queue: nothing comes, or one compile under the next ticket. -/
def Queues (d d' : Dispatcher) : Prop :=
  (d'.pendingJit.Sublist d.pendingJit ∧ d'.nextJitTicket = d.nextJitTicket) ∨
    ∃ kind, d'.pendingJit = d.pendingJit ++ [⟨d.nextJitTicket, d.bootGen, kind⟩] ∧ d'.nextJitTicket = d.nextJitTicket + 1

theorem Queues.of_same (hp : d'.pendingJit = d.pendingJit) (hn : d'.nextJitTicket = d.nextJitTicket) : Queues d d' :=
  .inl ⟨by rw [hp], hn⟩

theorem submit_queues {kind : PendingJitKind} {s : U64 × Dispatcher} (h : d.submitPendingJit kind = some s) : Queues d s.2 := by
  unfold submitPendingJit at h
  split at h
  · cases h
  · cases h
    exact .inr ⟨kind, rfl, rfl⟩

theorem Builds.queues (h : Builds d d') : Queues d d' := by
  cases h with
  | none => exact .of_same rfl rfl
  | issue r gen hr h =>
    obtain ⟨s, hs, h⟩ := Option.bind_eq_some_iff.1 h
    obtain ⟨j, -, h⟩ := Option.bind_eq_some_iff.1 h
    cases h
    exact submit_queues hs

theorem issuePageModule_queues (d : Dispatcher) (key : PageKey) (source : PageModuleSource) (batch : Option PendingBatch) :
    Queues d (d.issuePageModule key source batch) := by
  unfold issuePageModule
  split
  · exact .of_same rfl rfl
  · exact .of_same rfl rfl
  · split
    · exact .of_same rfl rfl
    · split
      · exact .of_same rfl rfl
      · rename_i s hs
        exact submit_queues hs

theorem Step.queues {m : M} {a : Action} (hs : Step m d a d') (hc : ∀ t b n, a ≠ .complete t b n) : Queues d d' := by
  cases hs with
  | extend hidx hq sampling hb => exact hb.queues
  | buildQueued hk hb => exact hb.queues
  | build ht hb => exact hb.queues
  | pageModule ht key source batch hb => exact issuePageModule_queues d key source batch
  | block ht h => exact submit_queues h
  | batch ht hp h => exact submit_queues h
  | submitStage ht h =>
    unfold submitConfirmedStage at h
    split at h
    · cases h
    · obtain ⟨s, hs, rfl⟩ := Option.map_eq_some_iff.1 h
      exact submit_queues hs
  | blacklist ht h =>
    obtain ⟨c, -, rfl⟩ := Option.map_eq_some_iff.1 h
    exact .of_same rfl rfl
  | complete h => exact absurd rfl (hc _ _ _)
  | reset => exact .inl ⟨List.nil_sublist _, rfl⟩
  | _ => exact .of_same rfl rfl

/-- A completion takes its compile out of the queue, and makes it an owner at most. -/
theorem Numbered.complete {m m' : M} {ticket : U64} (h : Numbered d) (hown : Exact fresh d.jit.uses .closed d.jit.toOwnedCode)
    (hp : d.AllProper) (hb : InRange base) (hf : fresh → base + n ≤ 2 ^ 31) (hr : d.completeJit m ticket base n = some (m', d')) :
    Numbered d' := by
  unfold completeJit at hr
  cases hfind : d.findPending ticket with
  | none =>
    rw [hfind] at hr
    cases hr
    refine h.fewer (List.Sublist.refl _) rfl fun o ho => ?_
    unfold Alive at ho ⊢
    rwa [(dropSlots_same d.jit base n).2.2.1] at ho
  | some s =>
    obtain ⟨pos, p⟩ := s
    rw [hfind] at hr
    have hperm := (findPending_some hfind).2
    have hmem := hperm.subset List.mem_cons_self
    have hcode : (d.take pos p).jit.toOwnedCode = d.jit.toOwnedCode := removePendingCoverage_code d.jit p.kind
    have halive : ∀ q, d'.jit.Alive q → d.jit.Alive q ∨ q = p.ticket := fun q hq => by
      have := settle_alive (d := d.take pos p) (by rw [hcode]; exact hown) (hp p hmem) hb hf hr hq
      rwa [hcode] at this
    have hpend : d'.pendingJit = swapRemove d.pendingJit pos := (settle_claims hr).2
    have hnext : d'.nextJitTicket = d.nextJitTicket := (settle_clock hr).next
    have hnodup := ((hperm.map PendingJit.ticket).nodup_iff.2 h.nodup)
    rw [List.map_cons, List.nodup_cons] at hnodup
    refine ⟨fun q hq => ?_, fun o ho => ?_, by rw [hpend]; exact hnodup.2, fun q hq ho => ?_⟩
    · rw [hpend] at hq
      rw [hnext]
      exact h.pending q (hperm.subset (List.mem_cons_of_mem p hq))
    · rw [hnext]
      rcases halive o ho with ho | rfl
      · exact h.owners o ho
      · exact h.pending p hmem
    · rw [hpend] at hq
      rcases halive q.ticket ho with ho | he
      · exact h.apart q (hperm.subset (List.mem_cons_of_mem p hq)) ho
      · exact hnodup.1 (he ▸ List.mem_map_of_mem hq)

/-- The owners after a step other than a completion. -/
theorem Step.fewerOwners {m : M} {a : Action} (h : Owns fresh d) (hs : Step m d a d') (hc : ∀ t b n, a ≠ .complete t b n)
    {q : JitOwnerId}
    (hq : d'.jit.Alive q) : d.jit.Alive q := by
  by_cases hpm : a = .pageModule
  · subst hpm
    cases hs with
    | pageModule _ key source batch _ =>
      unfold Alive at hq ⊢
      rcases issuePageModule_code d key source batch with hcode | ⟨s, hr⟩
      · rwa [hcode] at hq
      · rwa [hr.code] at hq
  · exact (Step.keeps h hs hc hpm).pages.alive q hq

/-! ## Runs -/

/-- The host answers with slots that are not in use, and tickets do not run out. -/
def Answers (d : Dispatcher) (a : Action) : Prop := d.HandsFresh a ∧ d.nextJitTicket.toNat + 1 < 2 ^ 64

/-- What holds in every state of a run whose answers are fresh. -/
structure Orderly (d : Dispatcher) : Prop where
  owns : Owns True d
  proper : d.AllProper
  numbered : d.Numbered

theorem Orderly.step {m : M} {a : Action} (h : Orderly d) (ha : d.Answers a) (hs : Step m d a d') : Orderly d' := by
  refine ⟨(hs.exact h.owns h.proper (fun _ => rfl) ha.1).1, h.proper.step hs, ?_⟩
  by_cases hc : ∃ t b n, a = .complete t b n
  · obtain ⟨t, b, n, rfl⟩ := hc
    cases hs with
    | complete hr => exact h.numbered.complete h.owns h.proper ha.1.1 (fun _ => ha.1.2.1) hr
  · have hc' : ∀ t b n, a ≠ .complete t b n := fun t b n he => hc ⟨t, b, n, he⟩
    have halive := fun q => Step.fewerOwners h.owns hs hc' (q := q)
    rcases hs.queues hc' with ⟨hp, hn⟩ | ⟨kind, hp, hn⟩
    · exact h.numbered.fewer hp hn halive
    · exact h.numbered.issue ha.2 hp hn halive

theorem Orderly.of_run {settings : JitSettings} (h : Run (fun (_ : M) d a => d.Answers a) (Dispatcher.new settings) d) :
    Orderly d := by
  induction h with
  | start => exact ⟨owns_new True settings, fun _ hp => absurd hp List.not_mem_nil, numbered_new settings⟩
  | step _ hP hs ih => exact ih.step hP hs

/-- No assertion fails: every operation on the maps of compiled code returns. -/
structure Asserted (M : Type) [FullSystemJitMachine M] (d : Dispatcher) : Prop where
  complete : ∀ (m : M) (ticket : U64) (base : ℤ) (n : ℕ), 0 < n → FreshSlots d.jit.toOwnedCode base n →
    (d.completeJit m ticket base n).isSome
  resolve : ∀ pc mapped gen, (d.jit.toOwnedCode.resolve pc mapped gen).isSome
  extendInline : ∀ pc, (d.jit.toOwnedCode.extendInline pc).isSome
  dropBailing : ∀ pc, (d.jit.toOwnedCode.dropBailing pc).isSome
  demote : ∀ idx, (d.jit.demoteRegion idx).isSome
  drain : ∀ dirty : List U64, ∃ s, dirty.foldlM JitState.drainPage ⟨d.jit, fun _ => false, fun _ => false⟩ = some s ∧
    ∀ owners, (s.jit.invalidateSuperblockState s.pendingPages s.cachedPages owners).isSome
  blacklist : ∀ pc pa, (d.blacklist pc pa).isSome

theorem drainPage_isSome {s : Drain} (h : Exact fresh s.jit.uses .closed s.jit.toOwnedCode) (page : U64) :
    (drainPage s page).isSome := by
  unfold drainPage
  dsimp only
  rw [Option.isSome_map, dropStaged_code]
  have h1 : Exact False s.jit.uses .closed { s.jit.toOwnedCode with pageBlocks := s.jit.pageBlocks.remove page } :=
    { Exact.weaken h with
    pages := False.elim }
  exact Exact.foldlM_isSome (fun c a c' hc hs => (hc.dropCached rfl hs).1) (fun c a hc => hc.dropCached_isSome a) _ h1

theorem drainPages_isSome (dirty : List U64) : ∀ {s : Drain}, Exact fresh s.jit.uses .closed s.jit.toOwnedCode →
    (dirty.foldlM drainPage s).isSome := by
  induction dirty with
  | nil => exact fun _ => rfl
  | cons p l ih =>
    intro s h
    obtain ⟨s1, h1⟩ := Option.isSome_iff_exists.1 (drainPage_isSome h p)
    rw [List.foldlM_cons, h1]
    exact ih (drainPage_drops h h1).exact

/-- **No assertion on the maps of compiled code fails** in a run whose answers are fresh. -/
theorem assertions_hold {settings : JitSettings} (h : Run (fun (_ : M) d a => d.Answers a) (Dispatcher.new settings) d) :
    Asserted M d := by
  obtain ⟨hown, hp, hnum⟩ := Orderly.of_run h
  refine ⟨fun m ticket base n hn hf => completeJit_isSome m ticket hown hp hnum.apart hn hf, hown.resolve_isSome rfl rfl, hown.extendInline_isSome,
    hown.dropBailing_isSome rfl rfl, fun idx => ?_, fun dirty => ?_, fun pc pa => ?_⟩
  · unfold demoteRegion
    split
    · rfl
    · rw [Option.isSome_map]
      exact hown.demoteEntries_isSome rfl idx _
  · obtain ⟨s, hs⟩ := Option.isSome_iff_exists.1 (drainPages_isSome (s := ⟨d.jit, fun _ => false, fun _ => false⟩) dirty hown)
    refine ⟨s, hs, fun owners => ?_⟩
    have hd := drainPages_drops (s := ⟨d.jit, fun _ => false, fun _ => false⟩) hown hs
    unfold invalidateSuperblockState
    rw [Option.isSome_map]
    exact Exact.foldlM_isSome (fun c o c' hc hr => (hc.retireOwner rfl rfl hr).1)
      (fun c o hc => hc.retireOwner_isSome rfl rfl o false) owners hd.exact
  · unfold blacklist
    rw [Option.isSome_map]
    refine cacheInsert_isSome (hown.owned pc) fun i hi => ?_
    obtain ⟨b, hb, rfl, h0⟩ := entrySlot_eq_some.1 hi
    cases hb
    exact absurd (show (0 : ℤ) ≤ -1 from h0) (by decide)

/-- A block compiled into slot 7. -/
theorem assertions_hold_landed : ∃ d : Dispatcher, Asserted JitPageState d ∧ d.jit.slotAt 0x80000000 = some 7 := by
  obtain ⟨s, hs⟩ := Option.isSome_iff_exists.1 (show (hotDispatcher.submitPendingJit (.block resetBlock)).isSome by decide)
  have hlands : (s.2.completeJit resetPages 1 7 1).any fun t => decide (t.2.jit.slotAt 0x80000000 = some 7) := by
    obtain rfl := Option.some.inj hs
    decide
  have hfresh : s.2.Answers (.complete 1 7 1) := by
    obtain rfl := Option.some.inj hs
    exact ⟨⟨⟨by decide, by decide⟩, by decide, fun i _ => rfl⟩, by decide⟩
  obtain ⟨t, ht, hr⟩ := (Option.any_eq_true _ _).1 hlands
  have hthreshold : Run (fun (_ : JitPageState) d a => d.Answers a) (Dispatcher.new ⟨0, false⟩) _ :=
    Run.start.step (m := resetPages) (a := .threshold) ⟨trivial, by decide⟩ (.threshold 1)
  have hcount := hthreshold.step (m := resetPages) (a := .count 0x80000000) ⟨trivial, by decide⟩ (.count 0x80000000 rfl)
  have hblock := hcount.step (m := resetPages) (a := .block) ⟨trivial, by decide⟩ (.block ⟨rfl, by decide⟩ hs)
  have hland := hblock.step (m := resetPages) hfresh (.complete ht)
  exact ⟨t.2, assertions_hold hland, of_decide_eq_true hr⟩

end Dispatcher
end Lish
