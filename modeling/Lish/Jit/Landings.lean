import Lish.Jit.OwnersRetired
/-!
# Landings — new owners and new entries keep the maps exact

A landing module gets its slots first and its entries one by one; a slot that no entry took is retired at the end.
-/
namespace Lish
namespace OwnedCode

variable {fresh : Prop} {c c' c'' : OwnedCode} {f : ℤ → ℕ} {g : Gap} {o : JitOwnerId} {i : ℤ} {pc : U64}

/-! ## Recency -/

/-- The recency index after an owner was used. -/
structure Stamped (old : HashMap JitOwnerId U64) (o : JitOwnerId) (r : HashMap JitOwnerId U64) (cold : List (U64 × JitOwnerId)) : Prop where
  mem : ∀ x, x ∈ cold ↔ r x.2 = some x.1
  nodup : cold.Nodup
  isSome : ∀ o', (r o').isSome ↔ o' = o ∨ (old o').isSome

theorem updateOwnerRecency_eq (c : OwnedCode) (o : JitOwnerId) (s : U64) : c.updateOwnerRecency o s = { c with
    ownerRecency := (c.updateOwnerRecency o s).ownerRecency
    coldOwners := (c.updateOwnerRecency o s).coldOwners } := by
  unfold updateOwnerRecency
  split <;> rfl

theorem stamped (hc : ∀ x, x ∈ c.coldOwners ↔ c.ownerRecency x.2 = some x.1) (hn : c.coldOwners.Nodup) (o : JitOwnerId) (s : U64) :
    Stamped c.ownerRecency o (c.updateOwnerRecency o s).ownerRecency (c.updateOwnerRecency o s).coldOwners := by
  -- the new stamp, in an index without the owner
  have hnew : ∀ cold : List (U64 × JitOwnerId), (∀ x, x ∈ cold ↔ x.2 ≠ o ∧ c.ownerRecency x.2 = some x.1) → cold.Nodup →
      Stamped c.ownerRecency o (c.ownerRecency.insert o s) (SortedSet.insert ColdLe cold (s, o)) := by
    intro cold hmem hnd
    refine ⟨fun x => ?_, SortedSet.nodup_insert hnd, fun o' => ?_⟩
    · rw [SortedSet.mem_insert, hmem, HashMap.insert_apply]
      split
      · rename_i he
        constructor
        · exact fun hx => hx.elim (fun hx => by rw [hx]) fun hx => absurd he hx.1
        · exact fun hx => .inl (Prod.ext (Option.some.inj hx).symm he)
      · rename_i he
        constructor
        · exact fun hx => hx.elim (fun hx => absurd (by rw [hx]) he) And.right
        · exact fun hx => .inr ⟨he, hx⟩
    · rw [HashMap.insert_apply]
      split
      · rename_i he
        exact ⟨fun _ => .inl he, fun _ => rfl⟩
      · rename_i he
        exact ⟨.inr, fun ho => ho.elim (fun hn => absurd hn he) id⟩
  unfold updateOwnerRecency
  cases ht : c.ownerRecency o with
  | none =>
    refine hnew c.coldOwners (fun x => (hc x).trans ⟨fun hx => ⟨fun he => ?_, hx⟩, And.right⟩) hn
    rw [he, ht] at hx
    cases hx
  | some t =>
    split
    · refine ⟨hc, hn, fun o' => ⟨.inr, fun ho => ho.elim (fun he => ?_) id⟩⟩
      rw [he, ht]
      rfl
    · refine hnew (c.coldOwners.erase (t, o)) (fun x => ?_) (hn.erase _)
      rw [hn.mem_erase_iff, hc]
      refine ⟨fun hx => ⟨fun he => hx.1 ?_, hx.2⟩, fun hx => ⟨fun he => hx.1 (by rw [he]), hx.2⟩⟩
      have := hx.2
      rw [he, ht] at this
      exact Prod.ext (Option.some.inj this).symm he

theorem Exact.updateOwnerRecency (h : Exact fresh f g c) (ha : c.Alive o) (s : U64) : Exact fresh f g (c.updateOwnerRecency o s) := by
  have hs := stamped h.cold h.coldNodup o s
  rw [updateOwnerRecency_eq]
  exact { h with
    cold := hs.mem
    coldNodup := hs.nodup
    recency := fun o' => (hs.isSome o').trans ⟨fun ho => ho.elim (fun he => he ▸ ha) (h.recency o').1, fun ho => .inr ((h.recency o').2 ho)⟩ }

theorem updateOwnerRecency_uses (c : OwnedCode) (o : JitOwnerId) (s : U64) : (c.updateOwnerRecency o s).uses = c.uses := by
  rw [updateOwnerRecency_eq]
  rfl

/-- The owner of a slot has slots. -/
theorem Exact.alive (h : Exact fresh f g c) (ho : c.slotOwner i = some o) : c.Alive o := by
  obtain ⟨l, hl, -⟩ := h.owner_slots ho
  unfold Alive
  rw [hl]
  rfl

/-- An entry is replaced by one with the same slot and pages. -/
theorem Exact.restamp {b b' : JitBlock} (h : Exact fresh c.uses g c) (hb : (c.cache pc).join = some b) (hi : b'.idx = b.idx) (hpa : b'.pa = b.pa)
    (s : U64) : Exact fresh (uses { c with cache := c.cache.insert pc (some b'), useStamp := s }) g
      { c with cache := c.cache.insert pc (some b'), useStamp := s } := by
  have hjoin : ∀ pc', (c.cache.insert pc (some b') pc').join = if pc' = pc then some b' else (c.cache pc').join := fun pc' => by
    rw [HashMap.insert_apply]
    split <;> rfl
  have hslot : ∀ pc', slotAt { c with cache := c.cache.insert pc (some b'), useStamp := s } pc' = c.slotAt pc' := fun pc' => by
    rw [slotAt_join, slotAt_join]
    dsimp only
    rw [hjoin]
    split
    · rename_i he
      rw [he, hb]
      dsimp only [entrySlot]
      rw [hi]
    · rfl
  have hcov : ∀ pc' p, Covers { c with cache := c.cache.insert pc (some b'), useStamp := s } pc' p ↔ c.Covers pc' p := fun pc' p => by
    unfold Covers
    dsimp only
    rw [hjoin]
    split
    · rename_i he
      have hpages : blockPhysicalPages { c with cache := c.cache.insert pc (some b'), useStamp := s } b' = c.blockPhysicalPages b := by
        unfold blockPhysicalPages
        rw [hi, hpa]
      rw [he, hb]
      constructor
      · rintro ⟨b1, h1, hp⟩
        exact ⟨b, rfl, by rw [← hpages, Option.some.inj h1]; exact hp⟩
      · rintro ⟨b1, h1, hp⟩
        exact ⟨b', rfl, by rw [hpages, Option.some.inj h1]; exact hp⟩
    · rfl
  have huses : uses { c with cache := c.cache.insert pc (some b'), useStamp := s } = c.uses := by
    unfold uses
    rw [funext hslot]
  rw [huses]
  refine { h with
    owned := fun pc' i hs => h.owned pc' i (hslot pc' ▸ hs)
    entries := h.entries.congr fun o pc' => ?_
    exitPcs := fun pc' i r hs hr => h.exitPcs pc' i r (hslot pc' ▸ hs) hr
    lines := fun pc' hpc hn hl => ?_
    pages := fun hf => (h.pages hf).congr fun p pc' => by rw [hcov] }
  · unfold ownerAt
    rw [hslot]
  · obtain ⟨b1, h1, hidx⟩ := h.lines pc' hpc hn hl
    dsimp only
    rw [hjoin]
    split
    · rename_i he
      rw [he, hb] at h1
      exact ⟨b', rfl, by rw [hi, Option.some.inj h1]; exact hidx⟩
    · exact ⟨b1, h1, hidx⟩

/-- **Using an entry** changes its stamp and its owner's. -/
theorem Exact.touch (h : Exact fresh c.uses g c) (pc : U64) : Exact fresh (c.touch pc).uses g (c.touch pc) := by
  unfold OwnedCode.touch
  cases hb : (c.cache pc).join with
  | none =>
    dsimp only [nextJitUseStamp]
    rw [hb]
    exact { h with }
  | some block =>
    dsimp only [nextJitUseStamp]
    rw [hb]
    have h1 := h.restamp hb (rfl : ({ block with lastUsed := c.useStamp + 1 } : JitBlock).idx = block.idx) rfl (c.useStamp + 1)
    dsimp only
    cases ho : c.slotOwner block.idx with
    | none => exact h1
    | some o =>
      dsimp only
      rw [updateOwnerRecency_uses]
      exact h1.updateOwnerRecency (h.alive ho) _

/-! ## A new owner -/

theorem trackSlots (l : List ℤ) : ∀ {c c' : OwnedCode}, (∀ i ∈ l, 0 ≤ i) → l.foldlM (trackSlot o) c = some c' →
    c' = { c with
      slotOwner := fun i => if i ∈ l then some o else c.slotOwner i
      liveSlots := fun i => if i ∈ l then true else c.liveSlots i } ∧ l.Nodup ∧ ∀ i ∈ l, c.slotOwner i = none := by
  induction l with
  | nil =>
    intro c c' _ hr
    refine ⟨?_, List.nodup_nil, fun i hi => absurd hi List.not_mem_nil⟩
    simp only [List.not_mem_nil, if_false]
    exact (Option.some.inj hr).symm
  | cons j l ih =>
    intro c c' hl hr
    rw [List.foldlM_cons] at hr
    obtain ⟨c1, h1, h2⟩ := Option.bind_eq_some_iff.1 hr
    unfold trackSlot at h1
    split at h1
    · cases h1
    · rename_i hj
      have hj : c.slotOwner j = none := by simpa using hj
      have h1 := Option.some.inj h1
      unfold registerTableSlot at h1
      rw [if_neg (not_lt.2 (hl j List.mem_cons_self))] at h1
      obtain ⟨hc', hnd, hfree⟩ := ih (fun i hi => hl i (List.mem_cons_of_mem j hi)) h2
      have hjl : j ∉ l := fun hm => by
        have := hfree j hm
        rw [← h1] at this
        exact Option.some_ne_none o ((HashMap.insert_self c.slotOwner j o).symm.trans this)
      refine ⟨?_, List.nodup_cons.2 ⟨hjl, hnd⟩, fun i hi => ?_⟩
      · rw [hc', ← h1]
        congr 1
        · funext i
          dsimp only
          rw [HashMap.insert_apply]
          by_cases hi : i ∈ l <;> by_cases he : i = j <;> simp [hi, he]
        · funext i
          by_cases hi : i ∈ l <;> by_cases he : i = j <;> simp [hi, he]
      · rcases List.mem_cons.1 hi with he | he
        · rw [he, hj]
        · have := hfree i he
          rw [← h1] at this
          exact (HashMap.insert_of_ne fun hn : i = j => hjl (hn ▸ he)).symm.trans this

/-- What is there once a new owner has its slots, which nobody had. -/
structure Tracked (c : OwnedCode) (o : JitOwnerId) (slots : List ℤ) (r : OwnedCode) : Prop where
  cache : r.cache = c.cache
  dispatch : r.dispatch = c.dispatch
  refs : r.slotRefs = c.slotRefs
  pages : r.pageBlocks = c.pageBlocks
  slotOwner : ∀ i, r.slotOwner i = if i ∈ slots then some o else c.slotOwner i
  ownerSlots : r.ownerSlots = c.ownerSlots.insert o slots
  entries : r.ownerEntries = c.ownerEntries
  stamped : Stamped c.ownerRecency o r.ownerRecency r.coldOwners
  live : ∀ i, r.liveSlots i = if i ∈ slots then true else c.liveSlots i
  regions : r.regions = c.regions
  exits : r.regionExits = c.regionExits
  queue : r.extQueue = c.extQueue
  retired : r.retired = c.retired
  moduleOwner : r.pageModuleOwner = c.pageModuleOwner
  modules : r.pageModules = c.pageModules
  nonneg : ∀ i ∈ slots, 0 ≤ i
  unowned : ∀ i ∈ slots, c.slotOwner i = none
  slots : slots ≠ [] ∧ slots.Nodup
  dead : c.ownerSlots o = none

theorem Exact.tracked {slots : List ℤ} (h : Exact fresh f g c) (hr : c.trackOwner o slots = some c') :
    Tracked c o (slots.filter (0 ≤ ·)) c' := by
  unfold OwnedCode.trackOwner at hr
  dsimp only at hr
  split at hr
  · cases hr
  · rename_i hno
    obtain ⟨hne, hdead⟩ := not_or.1 hno
    obtain ⟨c1, h1, hr⟩ := Option.bind_eq_some_iff.1 hr
    have hpos : ∀ i ∈ slots.filter (0 ≤ ·), 0 ≤ i := fun i hi => of_decide_eq_true (List.mem_filter.1 hi).2
    obtain ⟨hc1, hnd, hfree⟩ := trackSlots _ hpos h1
    have hr := Option.some.inj hr
    obtain ⟨c2, hc2⟩ : ∃ c2, c2 = ({ c1 with ownerSlots := c1.ownerSlots.insert o (slots.filter (0 ≤ ·)) }.nextJitUseStamp : OwnedCode) := ⟨_, rfl⟩
    rw [← hc2] at hr
    rw [hc1] at hc2
    have hs := stamped (c := c2) (by rw [hc2]; exact h.cold) (by rw [hc2]; exact h.coldNodup) o c2.useStamp
    rw [hr, show c2.ownerRecency = c.ownerRecency by rw [hc2]; rfl] at hs
    rw [updateOwnerRecency_eq] at hr
    have hdead : c.ownerSlots o = none := by simpa using hdead
    refine ⟨?_, ?_, ?_, ?_, fun i => ?_, ?_, ?_, hs, fun i => ?_, ?_, ?_, ?_, ?_, ?_, ?_, hpos, hfree, ⟨hne, hnd⟩, hdead⟩
    all_goals
      rw [← hr, hc2]
      rfl

section Tracked

variable {slots : List ℤ}

theorem Tracked.alive (ht : Tracked c o slots c') {o' : JitOwnerId} : c'.Alive o' ↔ o' = o ∨ c.Alive o' := by
  unfold Alive
  rw [ht.ownerSlots, HashMap.insert_apply]
  split
  · rename_i he
    exact ⟨fun _ => .inl he, fun _ => rfl⟩
  · rename_i he
    exact ⟨.inr, fun ho => ho.elim (fun hn => absurd hn he) id⟩

theorem Tracked.isSome (ht : Tracked c o slots c') {i : ℤ} (hi : (c.slotOwner i).isSome) : (c'.slotOwner i).isSome := by
  rw [ht.slotOwner]
  split
  · rfl
  · exact hi

/-- Code that has a slot keeps its owner. -/
theorem Tracked.slotOwner_of_slotAt (ht : Tracked c o slots c') (h : Exact fresh f g c) (hs : c.slotAt pc = some i) :
    c'.slotOwner i = c.slotOwner i := by
  rw [ht.slotOwner, if_neg fun hm => ?_]
  have := h.owned pc i hs
  rw [ht.unowned i hm] at this
  cases this

theorem Tracked.slotAt (ht : Tracked c o slots c') (pc : U64) : c'.slotAt pc = c.slotAt pc := by
  unfold OwnedCode.slotAt
  rw [ht.cache]

theorem Tracked.uses (ht : Tracked c o slots c') : c'.uses = c.uses := by
  unfold OwnedCode.uses
  rw [funext ht.slotAt]

/-- **A new owner** with its slots. -/
theorem Exact.track (h : Exact fresh f g c) (hg : g.landing = none) (ht : Tracked c o slots c') :
    Exact fresh f { g with landing := some o } c' := by
  have hat : ∀ pc, c'.ownerAt pc = c.ownerAt pc := fun pc => by
    unfold ownerAt
    rw [ht.slotAt]
    cases hs : c.slotAt pc with
    | none => rfl
    | some i => exact ht.slotOwner_of_slotAt h hs
  have hcov : ∀ pc p, c'.Covers pc p ↔ c.Covers pc p := covers_congr ht.cache fun _ b _ => congrFun ht.regions b.idx
  refine
    { slots := ?slots, owned := ?owned, refs := ht.refs ▸ h.refs, settled := ?settled, entries := ?entries, cold := ht.stamped.mem
      coldNodup := ht.stamped.nodup, recency := ?recency, nonneg := ?nonneg, exits := ?exits, exitPcs := ?exitPcs, queue := ?queue
      modules := ?modules, moduleSlots := ?moduleSlots, lines := ?lines, pages := ?pages, regions := ?regions, live := ?live }
  case slots =>
    rw [ht.ownerSlots]
    refine (h.slots.insert (k := o) ht.slots.1 ht.slots.2).congr fun o' i => ?_
    rw [ht.slotOwner]
    by_cases hm : i ∈ slots
    · rw [if_pos hm]
      split
      · rename_i he
        exact ⟨fun _ => congrArg some he.symm, fun _ => hm⟩
      · rename_i he
        rw [ht.unowned i hm]
        exact ⟨fun hn => (nomatch hn), fun hn => absurd (Option.some.inj hn).symm he⟩
    · rw [if_neg hm]
      split
      · rename_i he
        refine ⟨fun hn => absurd hn hm, fun hi => ?_⟩
        exact absurd (he ▸ hi) (h.slots.eq_none.1 ht.dead i)
      · rfl
  case owned =>
    intro pc i hs
    rw [ht.slotAt] at hs
    exact ht.isSome (h.owned pc i hs)
  case settled =>
    intro i o' hi hn
    rw [ht.slotOwner] at hi
    split at hi
    · exact absurd hi hn
    · exact h.settled i o' hi fun hn => by rw [hg] at hn; cases hn
  case entries =>
    rw [ht.entries]
    exact h.entries.congr fun o' pc => by rw [hat]
  case recency =>
    intro o'
    rw [ht.stamped.isSome, h.recency]
    exact ht.alive.symm
  case nonneg =>
    intro i hi
    rw [ht.slotOwner] at hi
    split at hi
    · exact ht.nonneg i (by assumption)
    · exact h.nonneg i hi
  case exits => exact fun i hi => ht.isSome (h.exits i (ht.exits ▸ hi))
  case exitPcs =>
    intro pc i r hs hx
    rw [ht.slotAt] at hs
    rw [ht.exits] at hx
    exact h.exitPcs pc i r hs hx
  case queue => exact fun i hi => ht.isSome (h.queue i (ht.queue ▸ hi))
  case modules =>
    rw [ht.moduleOwner, ht.modules]
    exact h.modules
  case moduleSlots =>
    intro o' ho
    rw [ht.moduleOwner] at ho
    exact ht.alive.2 (.inr (h.moduleSlots o' ho))
  case lines =>
    intro pc hpc hn
    have := h.lines pc hpc hn
    unfold LineOk at this ⊢
    rwa [ht.dispatch, ht.cache]
  case pages =>
    intro hf
    rw [ht.pages]
    exact (h.pages hf).congr fun p pc => by rw [hcov]
  case regions => exact fun hf i hi => ht.isSome (h.regions hf i (ht.regions ▸ hi))
  case live =>
    intro hf i
    rw [ht.live, ht.slotOwner]
    split
    · exact ⟨fun _ => rfl, fun _ => rfl⟩
    · exact h.live hf i

end Tracked

/-! ## A new entry -/

section Insert

variable {entry : Option JitBlock}

theorem insert_join (m : HashMap U64 (Option JitBlock)) (pc pc' : U64) :
    (m.insert pc entry pc').join = if pc' = pc then entry else (m pc').join := by
  rw [HashMap.insert_apply]
  split <;> rfl

theorem slotAt_inserted (hc : c'.cache = c.cache.insert pc entry) (pc' : U64) :
    c'.slotAt pc' = if pc' = pc then entrySlot entry else c.slotAt pc' := by
  rw [slotAt_join, slotAt_join, hc, insert_join]
  split <;> rfl

/-- The maps with the new entry of a pc, the references apart. -/
theorem Exact.entryCame {oe : HashMap JitOwnerId (List U64)} {pb : HashMap U64 (List U64)} (ef : ℕ → Bool) (h : Exact fresh f g c)
    (hg : ∀ pc', g.line = some pc' → pc' = pc) (howned : ∀ i, entrySlot entry = some i → (c.slotOwner i).isSome)
    (hx : ∀ i r, entrySlot entry = some i → c.regionExits i = some r → pc ∈ r.entries)
    (hoe : oe.Lists fun o pc' => (if pc' = pc then (entrySlot entry).bind c.slotOwner else c.ownerAt pc') = some o ∧ g.owner ≠ some o)
    (hpb : fresh → pb.Lists fun p pc' => (if pc' = pc then ∃ b, entry = some b ∧ p ∈ c.blockPhysicalPages b else c.Covers pc' p) ∧ g.page ≠ some p) :
    Exact fresh f { g with line := some pc }
      { c with entryFilter := ef, cache := c.cache.insert pc entry, ownerEntries := oe, pageBlocks := pb } := by
  have hslot : ∀ pc', slotAt { c with entryFilter := ef, cache := c.cache.insert pc entry, ownerEntries := oe, pageBlocks := pb } pc' =
      if pc' = pc then entrySlot entry else c.slotAt pc' := slotAt_inserted rfl
  refine { h with owned := ?owned, entries := ?entries, exitPcs := ?exitPcs, lines := ?lines, pages := ?pages }
  case owned =>
    intro pc' i hs
    rw [hslot] at hs
    split at hs
    · exact howned i hs
    · exact h.owned pc' i hs
  case entries =>
    refine hoe.congr fun o pc' => ?_
    unfold ownerAt
    rw [hslot]
    split <;> rfl
  case exitPcs =>
    intro pc' i r hs hr
    rw [hslot] at hs
    split at hs
    · rename_i he
      exact he ▸ hx i r hs hr
    · exact h.exitPcs pc' i r hs hr
  case lines =>
    intro pc' hpc hhole hl
    have hne : pc' ≠ pc := fun he => hhole (congrArg some he.symm)
    obtain ⟨b, hb, hidx⟩ := h.lines pc' hpc (fun he => hne (hg pc' he)) hl
    refine ⟨b, ?_, hidx⟩
    dsimp only
    rw [insert_join, if_neg hne, hb]
  case pages =>
    intro hf
    refine (hpb hf).congr fun p pc' => and_congr_left fun _ => ?_
    unfold Covers
    dsimp only
    rw [insert_join]
    split <;> rfl

/-- The lists of the owners after an entry has moved from one to another. -/
theorem moveEntry_lists {R : JitOwnerId → U64 → Prop} {oldOwner newOwner : Option JitOwnerId} (h : c.ownerEntries.Lists R)
    (ho : ∀ o, R o pc ↔ oldOwner = some o) :
    (c.moveEntry pc oldOwner newOwner).ownerEntries.Lists fun o pc' => if pc' = pc then newOwner = some o else R o pc' := by
  unfold moveEntry
  split
  · rename_i he
    refine h.congr fun o pc' => ?_
    split
    · rename_i hp
      rw [hp, ho, he]
    · rfl
  · -- first the old owner's list, then the new one's
    have hdrop : ∀ {d : OwnedCode}, (oldOwner = none → d = c) → (∀ owner, oldOwner = some owner → d = c.removeOwnerEntry owner pc) →
        d.ownerEntries.Lists fun o pc' => pc' ≠ pc ∧ R o pc' := by
      intro d hnone hsome
      cases oldOwner with
      | none =>
        rw [hnone rfl]
        refine h.congr fun o pc' => ⟨fun hR => ⟨fun he => ?_, hR⟩, And.right⟩
        exact Option.some_ne_none o ((ho o).1 (he ▸ hR)).symm
      | some old =>
        rw [hsome old rfl]
        refine (dropFrom_lists h old pc).congr fun o pc' => ⟨fun hR => ⟨fun he => hR.2 ⟨?_, he⟩, hR.1⟩, fun hR => ⟨hR.2, fun hn => hR.1 hn.2⟩⟩
        exact (Option.some.inj ((ho o).1 (he ▸ hR.1))).symm
    cases newOwner with
    | none =>
      refine (hdrop (fun he => by rw [he]) fun owner he => by rw [he]).congr fun o pc' => ?_
      split
      · rename_i he
        exact ⟨fun hR => absurd he hR.1, fun hn => absurd hn (Option.some_ne_none o).symm⟩
      · rename_i he
        exact ⟨And.right, fun hR => ⟨he, hR⟩⟩
    | some new =>
      refine ((hdrop (fun he => by rw [he]) fun owner he => by rw [he]).add new pc).congr fun o pc' => ?_
      split
      · rename_i he
        exact ⟨fun hR => hR.elim (fun hR => absurd he hR.1) fun hR => congrArg some hR.1.symm, fun hn => .inr ⟨(Option.some.inj hn).symm, he⟩⟩
      · rename_i he
        exact ⟨fun hR => hR.elim And.right fun hR => absurd hR.2 he, fun hR => .inl ⟨he, hR⟩⟩

/-- Moving an entry between owners reads and writes their lists only. -/
theorem moveEntry_eq (he : c'.ownerEntries = c.ownerEntries) (pc : U64) (a b : Option JitOwnerId) :
    c'.moveEntry pc a b = { c' with ownerEntries := (c.moveEntry pc a b).ownerEntries } := by
  cases c
  cases c'
  dsimp only at he
  subst he
  unfold moveEntry
  split
  · rfl
  · cases a <;> cases b <;> rfl

/-- The blocks of the pages, without the old entry of a pc and with its new one. -/
def pagesAfter (c : OwnedCode) (pc : U64) (entry : Option JitBlock) : HashMap U64 (List U64) :=
  let left := match (c.cache pc).join with
    | some block => (c.blockPhysicalPages block).foldl (fun blocks page => dropFrom blocks page pc) c.pageBlocks
    | none => c.pageBlocks
  match entry with
  | some block => (c.blockPhysicalPages block).foldl (indexPage pc) left
  | none => left

theorem pagesAfter_lists {p : U64 → Prop} (h : c.pageBlocks.Lists fun q pc' => c.Covers pc' q ∧ p q) :
    ∀ entry, (∀ q, p q) → (c.pagesAfter pc entry).Lists fun q pc' =>
      (if pc' = pc then ∃ b, entry = some b ∧ q ∈ c.blockPhysicalPages b else c.Covers pc' q) ∧ p q := by
  intro entry hp
  have hleft : (match (c.cache pc).join with
      | some block => (c.blockPhysicalPages block).foldl (fun blocks page => dropFrom blocks page pc) c.pageBlocks
      | none => c.pageBlocks).Lists fun q pc' => pc' ≠ pc ∧ c.Covers pc' q := by
    cases hb : (c.cache pc).join with
    | none =>
      refine h.congr fun q pc' => ⟨fun hR => ⟨fun he => ?_, hR.1⟩, fun hR => ⟨hR.2, hp q⟩⟩
      obtain ⟨b, hb', -⟩ := hR.1
      rw [he, hb] at hb'
      cases hb'
    | some block =>
      refine (dropPages_lists h pc _).congr fun q pc' => ⟨fun hR => ⟨fun he => hR.2 ⟨?_, he⟩, hR.1.1⟩, fun hR => ⟨⟨hR.2, hp q⟩, fun hn => hR.1 hn.2⟩⟩
      obtain ⟨b, hb', hq⟩ := hR.1.1
      rw [he, hb] at hb'
      exact Option.some.inj hb' ▸ hq
  cases entry with
  | none =>
    refine hleft.congr fun q pc' => ?_
    split
    · rename_i he
      exact ⟨fun hR => absurd he hR.1, fun hn => nomatch hn.1⟩
    · rename_i he
      exact ⟨fun hR => ⟨hR.2, hp q⟩, fun hR => ⟨he, hR.1⟩⟩
  | some block =>
    refine (indexPages_lists hleft pc _).congr fun q pc' => ?_
    split
    · rename_i he
      refine ⟨fun hR => ⟨⟨block, rfl, hR.elim (fun hR => absurd he hR.1) And.left⟩, hp q⟩, fun ⟨⟨b, hb, hq⟩, _⟩ => .inr ⟨?_, he⟩⟩
      exact Option.some.inj hb ▸ hq
    · rename_i he
      exact ⟨fun hR => ⟨hR.elim And.right fun hR => absurd hR.2 he, hp q⟩, fun hR => .inl ⟨he, hR.1⟩⟩

/-- The owner of a new entry is as recent as the entry. -/
def stampEntry (c : OwnedCode) (owner : Option JitOwnerId) (entry : Option JitBlock) : OwnedCode :=
  match owner, entry with
  | some owner, some block => c.updateOwnerRecency owner block.lastUsed
  | _, _ => c

theorem filterEntry (c : OwnedCode) (pc : U64) (entry : Option JitBlock) :
    (if (entrySlot entry).isSome then { c with entryFilter := fun s => if s = dslot pc then true else c.entryFilter s } else c) =
      { c with entryFilter := if (entrySlot entry).isSome then fun s => if s = dslot pc then true else c.entryFilter s else c.entryFilter } := by
  split <;> rfl

theorem cacheInsert_eq (hr : c.cacheInsert pc entry = some c') : ∃ ef oldOwner newOwner,
    c.ownerOf (c.slotAt pc) = some oldOwner ∧ c.ownerOf (entrySlot entry) = some newOwner ∧
      c' = (stampEntry { c with
        entryFilter := ef
        cache := c.cache.insert pc entry
        ownerEntries := (c.moveEntry pc oldOwner newOwner).ownerEntries
        pageBlocks := c.pagesAfter pc entry } newOwner entry).moveRef (c.slotAt pc) (entrySlot entry) := by
  unfold OwnedCode.cacheInsert at hr
  rw [filterEntry] at hr
  obtain ⟨oldOwner, hold, hr⟩ := Option.bind_eq_some_iff.1 hr
  obtain ⟨newOwner, hnew, hr⟩ := Option.bind_eq_some_iff.1 hr
  refine ⟨if (entrySlot entry).isSome then fun s => if s = dslot pc then true else c.entryFilter s else c.entryFilter, oldOwner, newOwner,
    ?_, hnew, ?_⟩
  · rw [slotAt_join]
    exact hold
  · rw [← Option.some.inj hr, slotAt_join]
    refine congrArg (fun c => (stampEntry c newOwner entry).moveRef _ _) ?_
    unfold pagesAfter
    cases (c.cache pc).join <;> cases entry <;> exact moveEntry_eq (c := c) (by rfl) pc oldOwner newOwner

/-- One reference more. -/
theorem Exact.addRef (h : Exact fresh f g c) (i : ℤ) :
    Exact fresh (fun j => if j = i then f i + 1 else f j) g { c with slotRefs := c.slotRefs.insert i ((c.slotRefs i).getD 0 + 1) } := { h with
  refs := fun j => by
    change c.slotRefs.insert i ((c.slotRefs i).getD 0 + 1) j = _
    rw [HashMap.insert_apply]
    split
    · rw [h.refs, if_neg (Nat.succ_ne_zero (f i))]
      split
      · rename_i hz
        rw [hz]
        rfl
      · rfl
    · exact h.refs j
  settled := fun j o hj hn => by
    split
    · exact Nat.succ_pos (f i)
    · exact h.settled j o hj hn }

/-- The reference of the slot that an entry now runs in. -/
def refAdded (c : OwnedCode) : Option ℤ → OwnedCode
  | some idx => { c with slotRefs := c.slotRefs.insert idx ((c.slotRefs idx).getD 0 + 1) }
  | none => c

theorem moveRef_none {newIdx : Option ℤ} (h : none ≠ newIdx) : c.moveRef none newIdx = c.refAdded newIdx := by
  unfold OwnedCode.moveRef
  rw [if_neg h]
  cases newIdx <;> rfl

theorem moveRef_some {newIdx : Option ℤ} (h : some i ≠ newIdx) : c.moveRef (some i) newIdx = (c.refAdded newIdx).releaseSlot i false := by
  unfold OwnedCode.moveRef
  rw [if_neg h]
  cases newIdx <;> rfl

theorem Exact.refAdded (h : Exact fresh f g c) (newIdx : Option ℤ) :
    Releases fresh (fun i => f i + if newIdx = some i then 1 else 0) g c (c.refAdded newIdx) := by
  cases newIdx with
  | none => exact ⟨h, h.ownersGo_refl, .refl c, rfl, rfl⟩
  | some idx =>
    have hf : (fun i => f i + if some idx = some i then 1 else 0) = fun j => if j = idx then f idx + 1 else f j := by
      funext j
      by_cases hj : j = idx
      · rw [hj, if_pos rfl, if_pos rfl]
      · rw [if_neg fun hn => hj (Option.some.inj hn).symm, if_neg hj]
        rfl
    rw [hf]
    exact ⟨h.addRef idx, h.ownersGo rfl rfl rfl rfl rfl rfl, .of_same rfl rfl rfl, rfl, rfl⟩

theorem Releases.trans {f' : ℤ → ℕ} (h : Releases fresh f g c c') (h' : Releases fresh f' g c' c'') : Releases fresh f' g c c'' :=
  ⟨h'.exact, h.owners.trans h'.owners, h.entries.trans h'.entries, h'.cache.trans h.cache, h'.dispatch.trans h.dispatch⟩

theorem uses_congr (hc : c'.cache = c.cache) : c'.uses = c.uses := by
  unfold uses OwnedCode.slotAt
  rw [hc]

/-- **The reference of an entry moves** from its old slot to its new one. -/
theorem Exact.moveRef {newIdx : Option ℤ} (h : Exact fresh c.uses g c') (hslot : ∀ pc', c'.slotAt pc' = if pc' = pc then newIdx else c.slotAt pc') :
    Releases fresh c'.uses g c' (c'.moveRef (c.slotAt pc) newIdx) := by
  have hcount := uses_update hslot
  have hadd := h.refAdded newIdx
  by_cases he : c.slotAt pc = newIdx
  · have : c'.uses = c.uses := by
      funext i
      have := hcount i
      rw [he] at this
      exact Nat.add_right_cancel this
    unfold OwnedCode.moveRef
    rw [if_pos he, this]
    exact ⟨h, h.ownersGo_refl, .refl c', rfl, rfl⟩
  · cases hold : c.slotAt pc with
    | none =>
      rw [moveRef_none (hold ▸ he)]
      have : c'.uses = fun i => c.uses i + if newIdx = some i then 1 else 0 := by
        funext i
        have := hcount i
        rw [hold, if_neg fun hn => nomatch hn] at this
        exact this
      rw [this]
      exact hadd
    | some i =>
      rw [moveRef_some (hold ▸ he)]
      have hnew : newIdx ≠ some i := fun hn => he (hold.trans hn.symm)
      have hi := hcount i
      rw [if_pos hold, if_neg hnew, Nat.add_zero] at hi
      have hfi : (c.uses i + if newIdx = some i then 1 else 0) = c.uses i := by
        rw [if_neg hnew, Nat.add_zero]
      have hrel := hadd.exact.releaseSlot (i := i) (by rw [hfi]; omega) (fun hone => by
        rw [hfi] at hone
        have hz : (c'.refAdded newIdx).uses i = 0 := by
          rw [uses_congr hadd.cache]
          omega
        exact uses_eq_zero.1 hz) false
      have : c'.uses = fun j => if j = i then (c.uses i + if newIdx = some i then 1 else 0) - 1 else
          c.uses j + if newIdx = some j then 1 else 0 := by
        rw [hfi]
        funext j
        have hj := hcount j
        rw [hold] at hj
        split
        · rename_i he
          rw [he]
          omega
        · rename_i he
          rw [if_neg fun hn : some i = some j => he (Option.some.inj hn).symm] at hj
          exact hj
      rw [this]
      exact hadd.trans hrel

theorem stampEntry_eq (c : OwnedCode) (a : Option JitOwnerId) (entry : Option JitBlock) : c.stampEntry a entry = { c with
    ownerRecency := (c.stampEntry a entry).ownerRecency
    coldOwners := (c.stampEntry a entry).coldOwners } := by
  cases a with
  | none => rfl
  | some o =>
    cases entry with
    | none => rfl
    | some b => exact updateOwnerRecency_eq c o b.lastUsed

theorem Exact.stampEntry {a : Option JitOwnerId} (h : Exact fresh f g c) (ha : ∀ o, a = some o → c.Alive o) (entry : Option JitBlock) :
    Exact fresh f g (c.stampEntry a entry) := by
  cases a with
  | none => exact h
  | some o =>
    cases entry with
    | none => exact h
    | some b => exact h.updateOwnerRecency (ha o rfl) b.lastUsed

theorem ownerOf_eq {s : Option ℤ} {a : Option JitOwnerId} (h : c.ownerOf s = some a) :
    s.bind c.slotOwner = a ∧ ∀ i, s = some i → c.slotOwner i = a ∧ (c.slotOwner i).isSome := by
  cases s with
  | none => exact ⟨Option.some.inj h, fun i hi => nomatch hi⟩
  | some i =>
    obtain ⟨o, ho, rfl⟩ := Option.map_eq_some_iff.1 h
    refine ⟨ho, fun j hj => ?_⟩
    rw [← Option.some.inj hj, ho]
    exact ⟨rfl, rfl⟩

/-- What a new entry leaves as it was. -/
structure Inserted (fresh : Prop) (g : Gap) (c : OwnedCode) (pc : U64) (entry : Option JitBlock) (c' : OwnedCode) : Prop where
  exact : Exact fresh c'.uses { g with line := some pc } c'
  owners : OwnersGo c c'
  cache : c'.cache = c.cache.insert pc entry
  dispatch : c'.dispatch = c.dispatch
  exits : ∀ i, c'.regionExits i = none ∨ c'.regionExits i = c.regionExits i

/-- **A cache entry comes**, in the place of the old one. -/
theorem Exact.cacheInsert (h : Exact fresh c.uses g c) (hg : ∀ pc', g.line = some pc' → pc' = pc) (hgo : g.owner = none) (hgp : g.page = none)
    (hx : ∀ i r, entrySlot entry = some i → c.regionExits i = some r → pc ∈ r.entries) (hr : c.cacheInsert pc entry = some c') :
    Inserted fresh g c pc entry c' := by
  obtain ⟨ef, oldOwner, newOwner, hold, hnew, hc'⟩ := cacheInsert_eq hr
  obtain ⟨hat, -⟩ := ownerOf_eq hold
  obtain ⟨hnewAt, hnewSlot⟩ := ownerOf_eq hnew
  have hno : ∀ o : JitOwnerId, g.owner ≠ some o := fun o hn => by
    rw [hgo] at hn
    cases hn
  have hnp : ∀ p : U64, g.page ≠ some p := fun p hn => by
    rw [hgp] at hn
    cases hn
  have hentries : (c.moveEntry pc oldOwner newOwner).ownerEntries.Lists fun o pc' => if pc' = pc then newOwner = some o else c.ownerAt pc' = some o :=
    moveEntry_lists (h.entries.congr fun o pc' => ⟨And.left, fun hR => ⟨hR, hno o⟩⟩) fun o => by
      rw [← hat]
      exact Iff.rfl
  have h1 := Exact.entryCame ef h hg (fun i hi => (hnewSlot i hi).2) hx (hentries.congr fun o pc' => by
    rw [hnewAt]
    split
    · exact ⟨fun hR => ⟨hR, hno o⟩, And.left⟩
    · exact ⟨fun hR => ⟨hR, hno o⟩, And.left⟩) (fun hf => pagesAfter_lists (h.pages hf) entry hnp)
  obtain ⟨c1, hc1⟩ : ∃ c1, c1 = ({ c with
      entryFilter := ef
      cache := c.cache.insert pc entry
      ownerEntries := (c.moveEntry pc oldOwner newOwner).ownerEntries
      pageBlocks := c.pagesAfter pc entry } : OwnedCode) := ⟨_, rfl⟩
  rw [← hc1] at h1 hc'
  have hgo1 : OwnersGo c c1 := by
    rw [hc1]
    exact h.ownersGo rfl rfl rfl rfl rfl rfl
  have halive : ∀ o, newOwner = some o → c1.Alive o := by
    intro o ho
    rw [← hnewAt] at ho
    obtain ⟨i, -, hi⟩ := Option.bind_eq_some_iff.1 ho
    rw [hc1]
    exact h.alive hi
  have h2 := h1.stampEntry halive entry
  have hgo2 : OwnersGo c1 (c1.stampEntry newOwner entry) := by
    rw [stampEntry_eq]
    exact h1.ownersGo rfl rfl rfl rfl rfl rfl
  have hsame : (c1.stampEntry newOwner entry).cache = c.cache.insert pc entry ∧ (c1.stampEntry newOwner entry).dispatch = c.dispatch ∧
      (c1.stampEntry newOwner entry).regionExits = c.regionExits := by
    rw [stampEntry_eq, hc1]
    exact ⟨rfl, rfl, rfl⟩
  have h3 := h2.moveRef (slotAt_inserted hsame.1)
  rw [← hc'] at h3
  refine ⟨?_, (hgo1.trans hgo2).trans h3.owners, h3.cache.trans hsame.1, h3.dispatch.trans hsame.2.1, fun i => ?_⟩
  · rw [uses_congr h3.cache]
    exact h3.exact
  · rw [← hsame.2.2]
    exact h3.entries.exits i

end Insert

end OwnedCode
end Lish
