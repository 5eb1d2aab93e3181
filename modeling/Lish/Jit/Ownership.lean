import Lish.Jit.JitState
/-!
# Ownership — the maps of compiled code agree

Seven maps say which code is cached, which slot it runs in and which module owns the slot.  Each is a function of the cache and
of the owners of the slots, and stays one through every operation.
-/
namespace Lish
namespace OwnedCode

instance : Finite U64 := Finite.of_injective BitVec.toFin fun _ _ h => BitVec.toFin_inj.1 h

/-! ## What the maps say -/

/-- The owner of the code at a pc. -/
def ownerAt (c : OwnedCode) (pc : U64) : Option JitOwnerId := (c.slotAt pc).bind c.slotOwner

/-- The code at a pc lies in a physical page. -/
def Covers (c : OwnedCode) (pc page : U64) : Prop := ∃ b, (c.cache pc).join = some b ∧ page ∈ c.blockPhysicalPages b

/-- The number of cache entries that run in a slot. -/
noncomputable def uses (c : OwnedCode) (i : ℤ) : ℕ := HashMap.count c.slotAt i

/-- What an operation under way has not restored yet: the entries of an owner and the blocks of a page are not listed, a line may
be stale, a replaced page module is still there, a landing's slots are not all in use. -/
structure Gap where
  owner : Option JitOwnerId
  page : Option U64
  line : Option U64
  prior : Option JitOwnerId
  landing : Option JitOwnerId

def Gap.closed : Gap := ⟨none, none, none, none, none⟩

/-- The line of a pc calls the code that the cache has for it. -/
def LineOk (c : OwnedCode) (pc : U64) : Prop :=
  (c.dispatch (dslot pc)).pc = pc → ∃ b, (c.cache pc).join = some b ∧ b.idx = (c.dispatch (dslot pc)).idx

/-- The maps are those of the cache and the slots' owners.  `f` is what the reference counts say.  The last three hold if the host
handed out `fresh` slots only. -/
structure Exact (fresh : Prop) (f : ℤ → ℕ) (g : Gap) (c : OwnedCode) : Prop where
  slots : c.ownerSlots.Lists fun o i => c.slotOwner i = some o
  owned : ∀ pc i, c.slotAt pc = some i → (c.slotOwner i).isSome
  refs : ∀ i, c.slotRefs i = if f i = 0 then none else some (f i)
  settled : ∀ i o, c.slotOwner i = some o → g.landing ≠ some o → 0 < f i
  entries : c.ownerEntries.Lists fun o pc => c.ownerAt pc = some o ∧ g.owner ≠ some o
  cold : ∀ x, x ∈ c.coldOwners ↔ c.ownerRecency x.2 = some x.1
  coldNodup : c.coldOwners.Nodup
  recency : ∀ o, (c.ownerRecency o).isSome ↔ (c.ownerSlots o).isSome
  nonneg : ∀ i, (c.slotOwner i).isSome → 0 ≤ i
  exits : ∀ i, (c.regionExits i).isSome → (c.slotOwner i).isSome
  exitPcs : ∀ pc i r, c.slotAt pc = some i → c.regionExits i = some r → pc ∈ r.entries
  queue : ∀ i ∈ c.extQueue, (c.slotOwner i).isSome
  modules : ∀ o key, c.pageModuleOwner o = some key ∧ g.prior ≠ some o ↔
    (c.pageModules key).bind PageModuleState.activeOwner = some o
  moduleSlots : ∀ o, (c.pageModuleOwner o).isSome → (c.ownerSlots o).isSome
  lines : ∀ pc, pc ≠ NO_PC → g.line ≠ some pc → c.LineOk pc
  pages : fresh → c.pageBlocks.Lists fun p pc => c.Covers pc p ∧ g.page ≠ some p
  regions : fresh → ∀ i, (c.regions i).isSome → (c.slotOwner i).isSome
  live : fresh → ∀ i, c.liveSlots i = true ↔ (c.slotOwner i).isSome

variable {fresh : Prop} {c c' c'' : OwnedCode} {f : ℤ → ℕ} {g : Gap} {o : JitOwnerId} {i : ℤ} {pc : U64}

theorem Exact.weaken (h : Exact fresh f g c) : Exact False f g c := { h with
  pages := False.elim
  regions := False.elim
  live := False.elim }

/-! ## Lists under keys -/

/-- An element dropped from under a key. -/
theorem dropFrom_lists {κ α : Type} [DecidableEq κ] [DecidableEq α] {m : HashMap κ (List α)} {R : κ → α → Prop} (h : m.Lists R) (k : κ) (a : α) :
    (dropFrom m k a).Lists fun k' a' => R k' a' ∧ ¬(k' = k ∧ a' = a) := by
  unfold dropFrom
  cases hk : m k with
  | none =>
    refine h.congr fun k' a' => ⟨fun hR => ⟨hR, fun he => ?_⟩, And.left⟩
    rw [he.1] at hR
    exact h.eq_none.1 hk a' hR
  | some l =>
    have hmem : ∀ a', a' ∈ l.filter (· ≠ a) ↔ R k a' ∧ a' ≠ a := fun a' => by
      rw [List.mem_filter, h.mem_iff hk, decide_eq_true_eq]
    dsimp only
    split
    · rename_i hnil
      refine (h.remove k).congr fun k' a' => ⟨fun hR => ⟨hR.2, fun he => hR.1 he.1⟩, fun hR => ⟨fun he => ?_, hR.1⟩⟩
      have : a' ∈ l.filter (· ≠ a) := (hmem a').2 ⟨he ▸ hR.1, fun ha => hR.2 ⟨he, ha⟩⟩
      rw [hnil] at this
      exact absurd this List.not_mem_nil
    · rename_i hne
      refine (h.insert hne ((h.proper k l hk).2.filter _)).congr fun k' a' => ?_
      split
      · rename_i he
        rw [hmem, he]
        exact and_congr_right fun _ => ⟨fun hn he => hn he.2, fun hn he => hn ⟨rfl, he⟩⟩
      · rename_i he
        exact ⟨fun hR => ⟨hR, fun hn => he hn.1⟩, And.left⟩

theorem dropFrom_of_ne {κ α : Type} [DecidableEq κ] [DecidableEq α] {m : HashMap κ (List α)} {k k' : κ} (h : k' ≠ k) (a : α) :
    dropFrom m k a k' = m k' := by
  unfold dropFrom
  cases m k with
  | none => rfl
  | some l =>
    dsimp only
    split
    · exact HashMap.remove_of_ne h
    · exact HashMap.insert_of_ne h

theorem dropFrom_self {κ α : Type} [DecidableEq κ] [DecidableEq α] {m : HashMap κ (List α)} {k : κ} {l : List α} (h : m k = some l) (a : α) :
    dropFrom m k a k = if l.filter (· ≠ a) = [] then none else some (l.filter (· ≠ a)) := by
  unfold dropFrom
  rw [h]
  dsimp only
  split
  · exact HashMap.remove_self m k
  · exact HashMap.insert_self m k _

theorem dropPages_lists {m : HashMap U64 (List U64)} {R : U64 → U64 → Prop} (h : m.Lists R) (pc : U64) (ps : List U64) :
    (ps.foldl (fun blocks page => dropFrom blocks page pc) m).Lists fun p pc' => R p pc' ∧ ¬(p ∈ ps ∧ pc' = pc) := by
  induction ps generalizing m R with
  | nil => exact h.congr fun p pc' => ⟨fun hR => ⟨hR, fun hn => absurd hn.1 List.not_mem_nil⟩, And.left⟩
  | cons q qs ih =>
    refine (ih (dropFrom_lists h q pc)).congr fun p pc' => ?_
    rw [List.mem_cons]
    tauto

theorem indexPages_lists {m : HashMap U64 (List U64)} {R : U64 → U64 → Prop} (h : m.Lists R) (pc : U64) (ps : List U64) :
    (ps.foldl (indexPage pc) m).Lists fun p pc' => R p pc' ∨ p ∈ ps ∧ pc' = pc := by
  induction ps generalizing m R with
  | nil => exact h.congr fun p pc' => ⟨.inl, fun hR => hR.elim id fun hn => absurd hn.1 List.not_mem_nil⟩
  | cons q qs ih =>
    refine (ih (h.add q pc)).congr fun p pc' => ?_
    rw [List.mem_cons]
    tauto

/-- The pages of a block depend only on the record of its own slot. -/
theorem covers_congr {c' : OwnedCode} (hc : c'.cache = c.cache) (hr : ∀ pc b, (c.cache pc).join = some b → c'.regions b.idx = c.regions b.idx)
    (pc p : U64) : c'.Covers pc p ↔ c.Covers pc p := by
  unfold Covers blockPhysicalPages
  rw [hc]
  constructor
  · rintro ⟨b, hb, hp⟩
    rw [hr pc b hb] at hp
    exact ⟨b, hb, hp⟩
  · rintro ⟨b, hb, hp⟩
    rw [← hr pc b hb] at hp
    exact ⟨b, hb, hp⟩

theorem slotAt_join (c : OwnedCode) (pc : U64) : c.slotAt pc = entrySlot (c.cache pc).join := by
  unfold slotAt
  cases c.cache pc with
  | none => rfl
  | some e => rfl

theorem slotAt_of_block {b : JitBlock} (hb : (c.cache pc).join = some b) (hidx : 0 ≤ b.idx) : c.slotAt pc = some b.idx := by
  rw [slotAt_join, hb]
  exact if_pos hidx

theorem entrySlot_eq_some {e : Option JitBlock} : entrySlot e = some i ↔ ∃ b, e = some b ∧ b.idx = i ∧ 0 ≤ i := by
  cases e with
  | none => exact ⟨fun hn => (nomatch hn), fun ⟨_, hn, _⟩ => (nomatch hn)⟩
  | some b =>
    unfold entrySlot
    dsimp only
    split
    · rename_i hb
      exact ⟨fun he => ⟨b, rfl, Option.some.inj he, Option.some.inj he ▸ hb⟩, fun ⟨_, he, hi, _⟩ => Option.some.inj he ▸ congrArg some hi⟩
    · rename_i hb
      exact ⟨fun hn => (nomatch hn), fun ⟨_, he, hi, h0⟩ => absurd (Option.some.inj he ▸ hi ▸ h0) hb⟩

/-- Code with an owner has a slot. -/
theorem ownerAt_eq_some : c.ownerAt pc = some o ↔ ∃ i, c.slotAt pc = some i ∧ c.slotOwner i = some o := Option.bind_eq_some_iff

/-! ## What goes -/

/-- An owner is gone when it has no slots. -/
def Alive (c : OwnedCode) (o : JitOwnerId) : Prop := (c.ownerSlots o).isSome

instance (c : OwnedCode) (o : JitOwnerId) : Decidable (c.Alive o) := inferInstanceAs (Decidable ((c.ownerSlots o).isSome = true))

/-- What the state of a page is once the owners without slots are gone. -/
def survives (c : OwnedCode) : PageModuleState → Option PageModuleState
  | .attempted source => some (.attempted source)
  | .pending source ticket prior => some (.pending source ticket (prior.filter fun code => c.Alive code.owner))
  | .live code => if c.Alive code.owner then some (.live code) else none

theorem survives_pending (source : PageModuleSource) (ticket : U64) (prior : Option LivePageModule) :
    c.survives (.pending source ticket prior) = some (.pending source ticket (prior.filter fun code => c.Alive code.owner)) := rfl

theorem survives_live (code : LivePageModule) : c.survives (.live code) = if c.Alive code.owner then some (.live code) else none := rfl

theorem survives_of_alive {s : PageModuleState} (h : ∀ o, s.activeOwner = some o → c.Alive o) : c.survives s = some s := by
  cases s with
  | attempted source => rfl
  | pending source ticket prior =>
    cases prior with
    | none => rfl
    | some code =>
      have : (some code : Option LivePageModule).filter (fun code => c.Alive code.owner) = some code := by
        rw [Option.filter_some, if_pos (decide_eq_true (h code.owner rfl))]
      exact congrArg (fun prior => some (PageModuleState.pending source ticket prior)) this
  | live code => exact if_pos (h code.owner rfl)

/-- What is left of a page's state without its live code. -/
def orphaned : PageModuleState → Option PageModuleState
  | .attempted source => some (.attempted source)
  | .pending source ticket _ => some (.pending source ticket none)
  | .live _ => none

theorem survives_of_dead {s : PageModuleState} (h : s.activeOwner = some o) (hd : ¬c.Alive o) :
    c.survives s = orphaned s := by
  cases s with
  | attempted source => cases h
  | pending source ticket prior =>
    cases prior with
    | none => rfl
    | some code =>
      cases h
      have : (some code : Option LivePageModule).filter (fun code => c.Alive code.owner) = none := by
        rw [Option.filter_some, if_neg fun hn => hd (of_decide_eq_true hn)]
      exact congrArg (fun prior => some (PageModuleState.pending source ticket prior)) this
  | live code =>
    cases h
    exact if_neg hd

/-- A later state's survivors are those of the earlier survivors. -/
theorem survives_trans (h : ∀ o, c'.Alive o → c.Alive o) (s : PageModuleState) : (c.survives s).bind c'.survives = c'.survives s := by
  cases s with
  | attempted source => rfl
  | pending source ticket prior =>
    have hp : (prior.filter fun code => c.Alive code.owner).filter (fun code => c'.Alive code.owner) = prior.filter fun code => c'.Alive code.owner := by
      cases prior with
      | none => rfl
      | some code =>
        simp only [Option.filter_some, decide_eq_true_eq]
        by_cases ha : c.Alive code.owner
        · rw [if_pos ha, Option.filter_some]
          simp only [decide_eq_true_eq]
        · rw [if_neg ha, if_neg fun h' => ha (h _ h')]
          rfl
    rw [survives_pending, survives_pending, Option.bind_some, survives_pending, hp]
  | live code =>
    rw [survives_live, survives_live]
    by_cases ha : c.Alive code.owner
    · rw [if_pos ha]
      rfl
    · rw [if_neg ha, if_neg fun h' => ha (h _ h')]
      rfl

/-- How often a slot has been in use. -/
def tally (c : OwnedCode) (i : ℤ) : ℕ := (c.retired i).length + if c.liveSlots i then 1 else 0

/-- Owners go and none comes: their slots are retired, and the page modules of those that are gone with them. -/
structure OwnersGo (c c' : OwnedCode) : Prop where
  owner : ∀ i o, c'.slotOwner i = some o → c.slotOwner i = some o
  alive : ∀ o, c'.Alive o → c.Alive o
  moduleOwner : ∀ o, c'.pageModuleOwner o = if c'.Alive o then c.pageModuleOwner o else none
  modules : ∀ key, c'.pageModules key = (c.pageModules key).bind c'.survives
  tally : ∀ i, c'.tally i = c.tally i
  liveLe : ∀ i, c'.liveSlots i = true → c.liveSlots i = true
  gone : ∀ i, (c.slotOwner i).isSome → c'.slotOwner i = none → c'.liveSlots i = false

/-- Entries go and none changes. -/
structure EntriesGo (c c' : OwnedCode) : Prop where
  cache : ∀ pc, c'.cache pc = none ∨ c'.cache pc = c.cache pc
  covers : ∀ pc p, c'.Covers pc p → c.Covers pc p
  exits : ∀ i, c'.regionExits i = none ∨ c'.regionExits i = c.regionExits i

/-- The owner of live code has slots and is the page's. -/
theorem Exact.active (h : Exact fresh f g c) (key : PageKey) (ha : (c.pageModules key).bind PageModuleState.activeOwner = some o) :
    c.Alive o ∧ c.pageModuleOwner o = some key := by
  have hm := ((h.modules o key).2 ha).1
  exact ⟨h.moduleSlots o (by rw [hm]; rfl), hm⟩

/-- Where no owner goes, every page keeps its state. -/
theorem Exact.survive (h : Exact fresh f g c) (hs : ∀ o, c.Alive o → c'.Alive o) (key : PageKey) :
    (c.pageModules key).bind c'.survives = c.pageModules key := by
  cases hk : c.pageModules key with
  | none => rfl
  | some s => exact survives_of_alive fun o ho => hs o (h.active key (by rw [hk]; exact ho)).1

/-- Nothing about the owners changes. -/
theorem Exact.ownersGo (h : Exact fresh f g c) (ho : c'.slotOwner = c.slotOwner) (hs : c'.ownerSlots = c.ownerSlots)
    (hmo : c'.pageModuleOwner = c.pageModuleOwner) (hm : c'.pageModules = c.pageModules) (hl : c'.liveSlots = c.liveSlots)
    (hr : c'.retired = c.retired) : OwnersGo c c' where
  owner i o hi := ho ▸ hi
  alive o ha := by
    unfold Alive at ha
    rwa [hs] at ha
  moduleOwner o := by
    rw [hmo]
    split
    · rfl
    · rename_i ha
      by_contra hne
      refine ha ?_
      unfold Alive
      rw [hs]
      exact h.moduleSlots o (Option.isSome_iff_ne_none.2 hne)
  modules key := by
    rw [hm, h.survive]
    intro o ha
    unfold Alive
    rwa [hs]
  tally i := by
    unfold OwnedCode.tally
    rw [hl, hr]
  liveLe i hi := hl ▸ hi
  gone i hi hn := by
    rw [ho] at hn
    rw [hn] at hi
    cases hi

theorem Exact.ownersGo_refl (h : Exact fresh f g c) : OwnersGo c c := h.ownersGo rfl rfl rfl rfl rfl rfl

theorem OwnersGo.trans (h : OwnersGo c c') (h' : OwnersGo c' c'') : OwnersGo c c'' where
  owner i o hi := h.owner i o (h'.owner i o hi)
  alive o ha := h.alive o (h'.alive o ha)
  moduleOwner o := by
    rw [h'.moduleOwner]
    split
    · rename_i ha
      rw [h.moduleOwner, if_pos (h'.alive o ha)]
    · rfl
  modules key := by
    rw [h'.modules, h.modules, Option.bind_assoc]
    cases c.pageModules key with
    | none => rfl
    | some s => exact survives_trans h'.alive s
  tally i := (h'.tally i).trans (h.tally i)
  liveLe i hi := h.liveLe i (h'.liveLe i hi)
  gone i hi hn := by
    cases hc : c'.slotOwner i with
    | some o => exact h'.gone i (by rw [hc]; rfl) hn
    | none =>
      have := h.gone i hi hc
      by_contra hl
      rw [h'.liveLe i (Bool.eq_true_of_not_eq_false hl)] at this
      cases this

theorem EntriesGo.refl (c : OwnedCode) : EntriesGo c c := ⟨fun _ => .inr rfl, fun _ _ => id, fun _ => .inr rfl⟩

theorem EntriesGo.of_same (hc : c'.cache = c.cache) (hr : c'.regions = c.regions) (he : c'.regionExits = c.regionExits) : EntriesGo c c' where
  cache pc := .inr (congrFun hc pc)
  covers pc p h := (covers_congr hc (fun _ b _ => congrFun hr b.idx) pc p).1 h
  exits i := .inr (congrFun he i)

theorem EntriesGo.trans (h : EntriesGo c c') (h' : EntriesGo c' c'') : EntriesGo c c'' where
  cache pc := by
    rcases h'.cache pc with he | he
    · exact .inl he
    · rw [he]
      exact h.cache pc
  covers pc p hc := h.covers pc p (h'.covers pc p hc)
  exits i := by
    rcases h'.exits i with he | he
    · exact .inl he
    · rw [he]
      exact h.exits i

/-! ## Retiring a slot -/

/-- The owner of a slot has it in its list. -/
theorem Exact.owner_slots (h : Exact fresh f g c) (ho : c.slotOwner i = some o) : ∃ l, c.ownerSlots o = some l ∧ i ∈ l :=
  (h.slots.mem o i).1 ho

/-- An owner whose last slot goes has no code in the cache. -/
theorem Exact.last_slot (h : Exact fresh f g c) (hu : ∀ pc, c.slotAt pc ≠ some i) {l : List ℤ} (hl : c.ownerSlots o = some l)
    (hnil : l.filter (· ≠ i) = []) (pc : U64) : c.ownerAt pc ≠ some o := by
  intro hat
  obtain ⟨j, hj, ho⟩ := Option.bind_eq_some_iff.1 hat
  have hji : j ≠ i := fun he => hu pc (he ▸ hj)
  have : j ∈ l.filter (· ≠ i) := List.mem_filter.2 ⟨(h.slots.mem_iff hl).2 ho, decide_eq_true hji⟩
  rw [hnil] at this
  exact absurd this List.not_mem_nil

/-- What is left once an owner's slot is retired, its last one or not. -/
structure SlotGone (c : OwnedCode) (o : JitOwnerId) (i : ℤ) (evicted last : Bool) (r : OwnedCode) : Prop where
  cache : r.cache = c.cache
  dispatch : r.dispatch = c.dispatch
  refs : r.slotRefs = c.slotRefs
  pages : r.pageBlocks = c.pageBlocks
  slotOwner : r.slotOwner = c.slotOwner.remove i
  ownerSlots : r.ownerSlots = dropFrom c.ownerSlots o i
  entries : r.ownerEntries = if last then c.ownerEntries.remove o else c.ownerEntries
  recency : r.ownerRecency = if last then c.ownerRecency.remove o else c.ownerRecency
  cold : r.coldOwners = if last then ((c.ownerRecency o).map fun s => c.coldOwners.erase (s, o)).getD c.coldOwners else c.coldOwners
  live : r.liveSlots = fun j => if j = i then false else c.liveSlots j
  regions : r.regions = c.regions.remove i
  exits : r.regionExits = c.regionExits.remove i
  queue : r.extQueue = c.extQueue.filter (· ≠ i)
  retired : r.retired = fun j => if j = i ∧ c.liveSlots i then c.retired j ++ [evicted] else c.retired j
  moduleOwner : r.pageModuleOwner = if last then c.pageModuleOwner.remove o else c.pageModuleOwner
  modules : r.pageModules =
    if last then ((c.pageModuleOwner o).map fun key => withoutOwner c.pageModules key o).getD c.pageModules else c.pageModules

section SlotGone

variable {r : OwnedCode} {l : List ℤ} {evicted last : Bool}

theorem SlotGone.isSome (hr : SlotGone c o i evicted last r) {j : ℤ} : (r.slotOwner j).isSome ↔ j ≠ i ∧ (c.slotOwner j).isSome := by
  rw [hr.slotOwner, HashMap.remove_apply]
  split
  · rename_i he
    exact ⟨fun h => (nomatch h), fun h => absurd he h.1⟩
  · rename_i he
    exact ⟨fun h => ⟨he, h⟩, And.right⟩

theorem SlotGone.slotAt (hr : SlotGone c o i evicted last r) (pc : U64) : r.slotAt pc = c.slotAt pc := by
  unfold OwnedCode.slotAt
  rw [hr.cache]

theorem SlotGone.ownerAt (hr : SlotGone c o i evicted last r) (hu : ∀ pc, c.slotAt pc ≠ some i) (pc : U64) :
    r.ownerAt pc = c.ownerAt pc := by
  unfold OwnedCode.ownerAt
  rw [hr.slotAt, hr.slotOwner]
  cases hs : c.slotAt pc with
  | none => rfl
  | some j => exact HashMap.remove_of_ne fun he => hu pc (he ▸ hs)

/-- The cached code keeps its page records. -/
theorem SlotGone.covers (hr : SlotGone c o i evicted last r) (hu : ∀ pc, c.slotAt pc ≠ some i) (hi : 0 ≤ i) (pc p : U64) :
    r.Covers pc p ↔ c.Covers pc p := by
  refine covers_congr hr.cache (fun pc b hb => ?_) pc p
  rw [hr.regions]
  refine HashMap.remove_of_ne fun he => ?_
  exact hu pc (he ▸ slotAt_of_block hb (he ▸ hi))

/-- An owner lives on unless its last slot went. -/
theorem SlotGone.alive (hr : SlotGone c o i evicted (decide (l.filter (· ≠ i) = [])) r) (hl : c.ownerSlots o = some l) {o' : JitOwnerId} :
    r.Alive o' ↔ c.Alive o' ∧ ¬(o' = o ∧ l.filter (· ≠ i) = []) := by
  unfold Alive
  rw [hr.ownerSlots]
  by_cases ho : o' = o
  · rw [ho, dropFrom_self hl, hl]
    split
    · rename_i hnil
      exact ⟨fun h => (nomatch h), fun h => absurd ⟨rfl, hnil⟩ h.2⟩
    · rename_i hnil
      exact ⟨fun _ => ⟨rfl, fun hn => hnil hn.2⟩, fun _ => rfl⟩
  · rw [dropFrom_of_ne ho]
    exact ⟨fun h => ⟨h, fun hn => ho hn.1⟩, And.left⟩

/-- The recency index has what the stamps say. -/
theorem SlotGone.mem_cold (h : Exact fresh f g c) (hr : SlotGone c o i evicted last r) {s : U64} (hs : c.ownerRecency o = some s)
    (x : U64 × JitOwnerId) : x ∈ r.coldOwners ↔ r.ownerRecency x.2 = some x.1 := by
  rw [hr.cold, hr.recency, hs]
  split
  · change x ∈ c.coldOwners.erase (s, o) ↔ _
    rw [h.coldNodup.mem_erase_iff, h.cold, HashMap.remove_eq_some]
    refine ⟨fun hx => ⟨fun he => hx.1 ?_, hx.2⟩, fun hx => ⟨fun he => hx.1 (by rw [he]), hx.2⟩⟩
    have := hx.2
    rw [he, hs] at this
    exact Prod.ext (Option.some.inj this).symm he
  · exact h.cold x

/-- A record of slots that are owned loses that of the slot which is gone. -/
theorem SlotGone.record {α : Type} (hr : SlotGone c o i evicted last r) {m : HashMap ℤ α} (hm : ∀ j, (m j).isSome → (c.slotOwner j).isSome)
    (j : ℤ) (hj : ((m.remove i) j).isSome) : (r.slotOwner j).isSome := by
  rw [HashMap.remove_apply] at hj
  split at hj
  · cases hj
  · rename_i he
    exact hr.isSome.2 ⟨he, hm j hj⟩

theorem withoutOwner_apply (modules : HashMap PageKey PageModuleState) (key k : PageKey) (o : JitOwnerId) :
    withoutOwner modules key o k =
      if k = key ∧ (modules k).bind PageModuleState.activeOwner = some o then (modules k).bind orphaned else modules k := by
  unfold withoutOwner
  by_cases hk : k = key
  · rw [hk]
    cases hs : modules key with
    | none =>
      rw [if_neg fun hn => nomatch hn.2]
      exact hs
    | some s =>
      cases s with
      | attempted source =>
        rw [if_neg fun hn => nomatch hn.2]
        exact hs
      | live code =>
        dsimp only
        split
        · rename_i ho
          rw [if_pos ⟨rfl, congrArg some ho⟩, HashMap.remove_self]
          rfl
        · rename_i ho
          rw [if_neg fun hn => ho (Option.some.inj hn.2)]
          exact hs
      | pending source ticket prior =>
        cases prior with
        | none =>
          rw [if_neg fun hn => nomatch hn.2]
          exact hs
        | some code =>
          dsimp only
          split
          · rename_i ho
            rw [if_pos ⟨rfl, congrArg some ho⟩, HashMap.insert_self]
            rfl
          · rename_i ho
            rw [if_neg fun hn => ho (Option.some.inj hn.2)]
            exact hs
  · rw [if_neg fun hn => hk hn.1]
    cases modules key with
    | none => rfl
    | some s =>
      cases s with
      | attempted source => rfl
      | live code =>
        dsimp only
        split
        · exact HashMap.remove_of_ne hk
        · rfl
      | pending source ticket prior =>
        cases prior with
        | none => rfl
        | some code =>
          dsimp only
          split
          · exact HashMap.insert_of_ne hk
          · rfl

/-- The pages whose live code was the owner's lose it with the last slot. -/
theorem Exact.slotGone_modules (h : Exact fresh f g c) (hl : c.ownerSlots o = some l)
    (hr : SlotGone c o i evicted (decide (l.filter (· ≠ i) = [])) r) (key : PageKey) :
    r.pageModules key = (c.pageModules key).bind r.survives := by
  rw [hr.modules]
  split
  · rename_i hlast
    have hnil := of_decide_eq_true hlast
    -- the state of `key`, when the owner's page is known
    have hstay : (c.pageModules key).bind PageModuleState.activeOwner ≠ some o → (c.pageModules key).bind r.survives = c.pageModules key := by
      intro hne
      cases hk : c.pageModules key with
      | none => rfl
      | some s =>
        rw [hk] at hne
        refine survives_of_alive fun o' ho' => (hr.alive hl).2 ⟨(h.active key (by rw [hk]; exact ho')).1, fun hn => ?_⟩
        exact hne (hn.1 ▸ ho')
    by_cases ha : (c.pageModules key).bind PageModuleState.activeOwner = some o
    · rw [(h.active key ha).2, Option.map_some, Option.getD_some, withoutOwner_apply, if_pos ⟨rfl, ha⟩]
      obtain ⟨s, hk, hs⟩ := Option.bind_eq_some_iff.1 ha
      rw [hk, Option.bind_some, Option.bind_some, survives_of_dead hs fun hn => ((hr.alive hl).1 hn).2 ⟨rfl, hnil⟩]
    · rw [hstay ha]
      cases c.pageModuleOwner o with
      | none => rfl
      | some key' =>
        rw [Option.map_some, Option.getD_some, withoutOwner_apply, if_neg fun hn => ha hn.2]
  · rename_i hlast
    exact (h.survive (fun o' ho' => (hr.alive hl).2 ⟨ho', fun hn => hlast (decide_eq_true hn.2)⟩) key).symm

theorem Exact.slotGone_moduleOwner (h : Exact fresh f g c) (hl : c.ownerSlots o = some l)
    (hr : SlotGone c o i evicted (decide (l.filter (· ≠ i) = [])) r) (o' : JitOwnerId) :
    r.pageModuleOwner o' = if r.Alive o' then c.pageModuleOwner o' else none := by
  rw [hr.moduleOwner]
  have hdead : ¬c.Alive o' → c.pageModuleOwner o' = none := fun hn => by
    by_contra hne
    exact hn (h.moduleSlots o' (Option.isSome_iff_ne_none.2 hne))
  by_cases ha : r.Alive o'
  · rw [if_pos ha]
    split
    · rename_i hlast
      exact HashMap.remove_of_ne fun he => ((hr.alive hl).1 ha).2 ⟨he, of_decide_eq_true hlast⟩
    · rfl
  · rw [if_neg ha]
    by_cases hc : c.Alive o'
    · have hgone : o' = o ∧ l.filter (· ≠ i) = [] := by
        by_contra hn
        exact ha ((hr.alive hl).2 ⟨hc, hn⟩)
      rw [if_pos (decide_eq_true hgone.2), hgone.1, HashMap.remove_self]
    · split
      · rw [HashMap.remove_apply, hdead hc, ite_self]
      · exact hdead hc

theorem Exact.slotGone_ownersGo (h : Exact fresh f g c) (hl : c.ownerSlots o = some l)
    (hr : SlotGone c o i evicted (decide (l.filter (· ≠ i) = [])) r) : OwnersGo c r where
  owner j o' hj := by
    rw [hr.slotOwner, HashMap.remove_eq_some] at hj
    exact hj.2
  alive o' ha := ((hr.alive hl).1 ha).1
  moduleOwner := h.slotGone_moduleOwner hl hr
  modules := h.slotGone_modules hl hr
  tally j := by
    unfold OwnedCode.tally
    rw [hr.live, hr.retired]
    by_cases hj : j = i
    · rw [hj]
      cases hlive : c.liveSlots i with
      | true => simp
      | false => simp
    · simp only [hj, if_false, false_and]
  liveLe j hj := by
    rw [hr.live] at hj
    dsimp only at hj
    split at hj
    · cases hj
    · exact hj
  gone j hs hn := by
    have hji : j = i := by
      by_contra hne
      have := hr.isSome.2 ⟨hne, hs⟩
      rw [hn] at this
      cases this
    rw [hr.live, hji]
    exact if_pos rfl

theorem SlotGone.entriesGo (hr : SlotGone c o i evicted last r) (hu : ∀ pc, c.slotAt pc ≠ some i) (hi : 0 ≤ i) : EntriesGo c r where
  cache pc := by
    rw [hr.cache]
    exact .inr rfl
  covers pc p hc := (hr.covers hu hi pc p).1 hc
  exits j := by
    rw [hr.exits, HashMap.remove_apply]
    split
    · exact .inl rfl
    · exact .inr rfl

/-- The page modules' two maps stay each other's inverse when owners go. -/
theorem Exact.modules_go (h : Exact fresh f g c) (hg : OwnersGo c c') (o : JitOwnerId) (key : PageKey) :
    c'.pageModuleOwner o = some key ∧ g.prior ≠ some o ↔ (c'.pageModules key).bind PageModuleState.activeOwner = some o := by
  have hact : ∀ s, (c'.survives s).bind PageModuleState.activeOwner = some o ↔ s.activeOwner = some o ∧ c'.Alive o := by
    intro s
    cases s with
    | attempted source => exact ⟨fun hn => (nomatch hn), fun hn => nomatch hn.1⟩
    | pending source ticket prior =>
      cases prior with
      | none => exact ⟨fun hn => (nomatch hn), fun hn => nomatch hn.1⟩
      | some code =>
        rw [survives_pending, Option.filter_some]
        simp only [decide_eq_true_eq, Option.bind_some, PageModuleState.activeOwner]
        split
        · rename_i ha
          exact ⟨fun he => ⟨he, Option.some.inj he ▸ ha⟩, And.left⟩
        · rename_i ha
          exact ⟨fun hn => (nomatch hn), fun hn => absurd (Option.some.inj hn.1 ▸ hn.2) ha⟩
    | live code =>
      rw [survives_live]
      split
      · rename_i ha
        exact ⟨fun he => ⟨he, Option.some.inj he ▸ ha⟩, And.left⟩
      · rename_i ha
        exact ⟨fun hn => (nomatch hn), fun hn => absurd (Option.some.inj hn.1 ▸ hn.2) ha⟩
  have hbind : (c'.pageModules key).bind PageModuleState.activeOwner = some o ↔
      (c.pageModules key).bind PageModuleState.activeOwner = some o ∧ c'.Alive o := by
    rw [hg.modules]
    cases c.pageModules key with
    | none => exact ⟨fun hn => (nomatch hn), fun hn => nomatch hn.1⟩
    | some s => exact hact s
  rw [hbind, hg.moduleOwner, ← h.modules]
  split
  · rename_i ha
    exact ⟨fun hm => ⟨hm, ha⟩, And.left⟩
  · rename_i ha
    exact ⟨fun hn => (nomatch hn.1), fun hn => absurd hn.2 ha⟩

theorem OwnersGo.moduleSlots (hg : OwnersGo c c') (o : JitOwnerId) (hs : (c'.pageModuleOwner o).isSome) : (c'.ownerSlots o).isSome := by
  rw [hg.moduleOwner] at hs
  split at hs
  · assumption
  · cases hs

theorem Exact.slotGone (h : Exact fresh f g c) (hu : ∀ pc, c.slotAt pc ≠ some i) (ho : c.slotOwner i = some o)
    (hl : c.ownerSlots o = some l) (hr : SlotGone c o i evicted (decide (l.filter (· ≠ i) = [])) r) : Exact fresh f g r := by
  obtain ⟨s, hs⟩ : ∃ s, c.ownerRecency o = some s := Option.isSome_iff_exists.1 ((h.recency o).2 (by rw [hl]; rfl))
  have hi : 0 ≤ i := h.nonneg i (by rw [ho]; rfl)
  have hgo := h.slotGone_ownersGo hl hr
  refine
    { slots := ?slots, owned := ?owned, refs := ?refs, settled := ?settled, entries := ?entries, cold := hr.mem_cold h hs, coldNodup := ?nodup, recency := ?recency
      nonneg := ?nonneg, exits := ?exits, exitPcs := ?exitPcs, queue := ?queue, modules := h.modules_go hgo, moduleSlots := hgo.moduleSlots
      lines := ?lines, pages := ?pages, regions := ?regions, live := ?live }
  case slots =>
    rw [hr.ownerSlots, hr.slotOwner]
    refine (dropFrom_lists h.slots o i).congr fun o' j => ?_
    rw [HashMap.remove_eq_some]
    refine ⟨fun hj => ⟨fun hji => hj.2 ⟨?_, hji⟩, hj.1⟩, fun hj => ⟨hj.2, fun hn => hj.1 hn.2⟩⟩
    exact Option.some.inj ((hji ▸ hj.1).symm.trans ho)
  case owned =>
    intro pc j hj
    rw [hr.slotAt] at hj
    exact hr.isSome.2 ⟨fun he => hu pc (he ▸ hj), h.owned pc j hj⟩
  case refs =>
    rw [hr.refs]
    exact h.refs
  case settled =>
    intro j o' hj hn
    rw [hr.slotOwner, HashMap.remove_eq_some] at hj
    exact h.settled j o' hj.2 hn
  case entries =>
    rw [hr.entries]
    split
    · rename_i hlast
      refine (h.entries.remove o).congr fun o' pc => ?_
      rw [hr.ownerAt hu]
      exact ⟨And.right, fun hR => ⟨fun he => h.last_slot hu hl (of_decide_eq_true hlast) pc (he ▸ hR.1), hR⟩⟩
    · exact h.entries.congr fun o' pc => by rw [hr.ownerAt hu]
  case nodup =>
    rw [hr.cold, hs]
    split
    · exact h.coldNodup.erase _
    · exact h.coldNodup
  case recency =>
    intro o'
    change _ ↔ r.Alive o'
    rw [hr.recency, hr.alive hl]
    split
    · rename_i hlast
      rw [HashMap.remove_apply]
      split
      · rename_i he
        exact ⟨fun hn => (nomatch hn), fun hn => absurd ⟨he, of_decide_eq_true hlast⟩ hn.2⟩
      · rename_i he
        exact (h.recency o').trans ⟨fun ha => ⟨ha, fun hn => he hn.1⟩, And.left⟩
    · rename_i hlast
      exact (h.recency o').trans ⟨fun ha => ⟨ha, fun hn => hlast (decide_eq_true hn.2)⟩, And.left⟩
  case nonneg => exact fun j hj => h.nonneg j (hr.isSome.1 hj).2
  case exits =>
    rw [hr.exits]
    exact hr.record h.exits
  case exitPcs =>
    intro pc j rec hj hrec
    rw [hr.slotAt] at hj
    rw [hr.exits, HashMap.remove_eq_some] at hrec
    exact h.exitPcs pc j rec hj hrec.2
  case queue =>
    intro j hj
    rw [hr.queue] at hj
    obtain ⟨hj, hji⟩ := List.mem_filter.1 hj
    exact hr.isSome.2 ⟨of_decide_eq_true hji, h.queue j hj⟩
  case lines =>
    intro pc hpc hhole
    have := h.lines pc hpc hhole
    unfold LineOk at this ⊢
    rwa [hr.dispatch, hr.cache]
  case pages =>
    intro hf
    rw [hr.pages]
    exact (h.pages hf).congr fun p pc => by rw [hr.covers hu hi]
  case regions =>
    intro hf
    rw [hr.regions]
    exact hr.record (h.regions hf)
  case live =>
    intro hf j
    rw [hr.live, hr.isSome]
    dsimp only
    split
    · rename_i he
      exact ⟨fun hn => (nomatch hn), fun hn => absurd he hn.1⟩
    · rename_i he
      exact ⟨fun hj => ⟨he, (h.live hf j).1 hj⟩, fun hj => (h.live hf j).2 hj.2⟩

end SlotGone

theorem retireTableSlot_eq (hi : 0 ≤ i) (evicted : Bool) : c.retireTableSlot i evicted = { c with
    liveSlots := fun j => if j = i then false else c.liveSlots j
    retired := fun j => if j = i ∧ c.liveSlots i then c.retired j ++ [evicted] else c.retired j } := by
  unfold retireTableSlot
  rw [if_neg (not_lt.2 hi)]
  cases hl : c.liveSlots i with
  | true => simp only [and_true, if_true]
  | false =>
    have hlive : (fun j => if j = i then false else c.liveSlots j) = c.liveSlots := by
      funext j
      split
      · rename_i he
        rw [he, hl]
      · rfl
    simp only [hlive, Bool.false_eq_true, and_false, if_false]

theorem retireOwnedSlot_gone {l : List ℤ} (ho : c.slotOwner i = some o) (hl : c.ownerSlots o = some l) (hi : 0 ≤ i) (evicted : Bool) :
    SlotGone c o i evicted (decide (l.filter (· ≠ i) = [])) (c.retireOwnedSlot i evicted) := by
  have hdrop : dropFrom c.ownerSlots o i = if l.filter (· ≠ i) = [] then c.ownerSlots.remove o else c.ownerSlots.insert o (l.filter (· ≠ i)) := by
    unfold dropFrom
    rw [hl]
  have hsame : (c.ownerSlots.insert o (l.filter (· ≠ i))).remove o = c.ownerSlots.remove o := by
    funext o'
    rw [HashMap.remove_apply, HashMap.remove_apply]
    split
    · rfl
    · rename_i he
      exact HashMap.insert_of_ne he
  by_cases hnil : l.filter (· ≠ i) = []
  · rw [if_pos hnil] at hdrop
    rw [decide_eq_true hnil]
    simp only [OwnedCode.retireOwnedSlot, retireTableSlot_eq hi, forgetOwner, ho, hl, if_pos hnil]
    refine ⟨rfl, rfl, rfl, rfl, rfl, hsame.trans hdrop.symm, rfl, rfl, ?_, rfl, rfl, rfl, rfl, rfl, rfl, ?_⟩
    · cases c.ownerRecency o with
      | none => rfl
      | some s => rfl
    · cases c.pageModuleOwner o with
      | none => rfl
      | some key => rfl
  · rw [if_neg hnil] at hdrop
    rw [decide_eq_false hnil]
    simp only [OwnedCode.retireOwnedSlot, retireTableSlot_eq hi, ho, hl, if_neg hnil]
    exact ⟨rfl, rfl, rfl, rfl, rfl, hdrop.symm, rfl, rfl, rfl, rfl, rfl, rfl, rfl, rfl, rfl, rfl⟩

theorem Exact.retires (h : Exact fresh f g c) (i : ℤ) (evicted : Bool) :
    c.slotOwner i = none ∧ c.retireOwnedSlot i evicted = c ∨ ∃ o l, c.slotOwner i = some o ∧ c.ownerSlots o = some l ∧
      SlotGone c o i evicted (decide (l.filter (· ≠ i) = [])) (c.retireOwnedSlot i evicted) := by
  cases ho : c.slotOwner i with
  | none =>
    refine .inl ⟨rfl, ?_⟩
    unfold OwnedCode.retireOwnedSlot
    rw [ho]
  | some o =>
    obtain ⟨l, hl, -⟩ := h.owner_slots ho
    exact .inr ⟨o, l, rfl, hl, retireOwnedSlot_gone ho hl (h.nonneg i (by rw [ho]; rfl)) evicted⟩

/-- An operation that keeps the maps exact while owners go, and leaves the entries. -/
structure Releases (fresh : Prop) (f : ℤ → ℕ) (g : Gap) (c c' : OwnedCode) : Prop where
  exact : Exact fresh f g c'
  owners : OwnersGo c c'
  entries : EntriesGo c c'
  cache : c'.cache = c.cache
  dispatch : c'.dispatch = c.dispatch

/-- **An unreferenced slot is retired.** -/
theorem Exact.retireOwnedSlot (h : Exact fresh f g c) (hu : ∀ pc, c.slotAt pc ≠ some i) (evicted : Bool) :
    Releases fresh f g c (c.retireOwnedSlot i evicted) ∧ (c.retireOwnedSlot i evicted).slotOwner i = none := by
  rcases h.retires i evicted with ⟨hn, he⟩ | ⟨o, l, ho, hl, hg⟩
  · rw [he]
    exact ⟨⟨h, h.ownersGo_refl, .refl c, rfl, rfl⟩, hn⟩
  · refine ⟨⟨h.slotGone hu ho hl hg, h.slotGone_ownersGo hl hg, hg.entriesGo hu (h.nonneg i (by rw [ho]; rfl)), hg.cache, hg.dispatch⟩, ?_⟩
    rw [hg.slotOwner, HashMap.remove_self]

theorem retireOwnedSlot_slotRefs (m : HashMap ℤ ℕ) (evicted : Bool) : ({ c with slotRefs := m } : OwnedCode).retireOwnedSlot i evicted =
    { c.retireOwnedSlot i evicted with slotRefs := m } := by
  unfold OwnedCode.retireOwnedSlot
  dsimp only
  cases c.slotOwner i with
  | none => rfl
  | some o =>
    dsimp only
    cases c.ownerSlots o with
    | none =>
      unfold retireTableSlot
      dsimp only
      split
      · rfl
      · split <;> rfl
    | some l =>
      unfold retireTableSlot forgetOwner
      dsimp only
      repeat' split
      all_goals rfl

/-- One reference less, and the slot is retired with the last. -/
theorem Exact.releaseSlot (h : Exact fresh f g c) (hf : 0 < f i) (hu : f i = 1 → ∀ pc, c.slotAt pc ≠ some i) (evicted : Bool) :
    Releases fresh (fun j => if j = i then f i - 1 else f j) g c (c.releaseSlot i evicted) := by
  have hrefs : c.slotRefs i = some (f i) := by
    rw [h.refs, if_neg hf.ne']
  unfold OwnedCode.releaseSlot
  rw [hrefs]
  dsimp only
  split
  · rename_i hne
    refine ⟨{ h with refs := fun j => ?_, settled := fun j o hj hn => ?_ }, h.ownersGo rfl rfl rfl rfl rfl rfl, .of_same rfl rfl rfl, rfl, rfl⟩
    · change c.slotRefs.insert i (f i - 1) j = _
      rw [HashMap.insert_apply]
      split
      · rfl
      · exact h.refs j
    · split
      · omega
      · exact h.settled j o hj hn
  · rename_i hz
    have hone : f i = 1 := by omega
    -- retiring a slot does not read the counts, so the count may go after it
    obtain ⟨hr, hn⟩ := h.retireOwnedSlot (hu hone) evicted
    rw [retireOwnedSlot_slotRefs]
    refine ⟨{ hr.exact with refs := fun j => ?_, settled := fun j o hj hn' => ?_ },
      hr.owners.trans (hr.exact.ownersGo rfl rfl rfl rfl rfl rfl), hr.entries.trans (.of_same rfl rfl rfl), hr.cache, hr.dispatch⟩
    · change c.slotRefs.remove i j = _
      rw [HashMap.remove_apply]
      split
      · rw [hone]
        rfl
      · exact h.refs j
    · split
      · rename_i he
        rw [he] at hj
        rw [hn] at hj
        exact absurd hj.symm (Option.some_ne_none o)
      · exact hr.exact.settled j o hj hn'

/-! ## An entry goes -/

theorem uses_eq_zero : c.uses i = 0 ↔ ∀ pc, c.slotAt pc ≠ some i := HashMap.count_eq_zero

/-- The counts after the entry of one pc has changed. -/
theorem uses_update {e : Option ℤ} (hc : ∀ pc', c'.slotAt pc' = if pc' = pc then e else c.slotAt pc') (i : ℤ) :
    c'.uses i + (if c.slotAt pc = some i then 1 else 0) = c.uses i + if e = some i then 1 else 0 := by
  unfold uses
  rw [show c'.slotAt = fun pc' => if pc' = pc then e else c.slotAt pc' from funext hc]
  exact HashMap.count_update c.slotAt pc e i

theorem slotAt_removed (hc : c'.cache = c.cache.remove pc) (pc' : U64) : c'.slotAt pc' = if pc' = pc then none else c.slotAt pc' := by
  unfold slotAt
  rw [hc, HashMap.remove_apply]
  split <;> rfl

/-- The maps without the entry of a pc, its slot's reference apart. -/
theorem Exact.entryGone {oe : HashMap JitOwnerId (List U64)} {pb : HashMap U64 (List U64)} (h : Exact fresh f g c)
    (hg : ∀ pc', g.line = some pc' → pc' = pc) (hoe : oe.Lists fun o pc' => (c.ownerAt pc' = some o ∧ g.owner ≠ some o) ∧ pc' ≠ pc)
    (hpb : fresh → pb.Lists fun p pc' => (c.Covers pc' p ∧ g.page ≠ some p) ∧ pc' ≠ pc) :
    Exact fresh f { g with line := some pc } { c with cache := c.cache.remove pc, ownerEntries := oe, pageBlocks := pb } := by
  have hslot : ∀ pc', slotAt { c with cache := c.cache.remove pc, ownerEntries := oe, pageBlocks := pb } pc' =
      if pc' = pc then none else c.slotAt pc' := slotAt_removed rfl
  refine { h with owned := ?owned, entries := ?entries, exitPcs := ?exitPcs, lines := ?lines, pages := ?pages }
  case owned =>
    intro pc' i hs
    rw [hslot] at hs
    split at hs
    · cases hs
    · exact h.owned pc' i hs
  case entries =>
    refine hoe.congr fun o pc' => ?_
    unfold ownerAt
    rw [hslot]
    split
    · rename_i he
      exact ⟨fun hn => absurd he hn.2, fun hn => nomatch hn.1⟩
    · rename_i he
      exact ⟨And.left, fun hR => ⟨hR, he⟩⟩
  case exitPcs =>
    intro pc' i r hs hr
    rw [hslot] at hs
    split at hs
    · cases hs
    · exact h.exitPcs pc' i r hs hr
  case lines =>
    intro pc' hpc hhole hl
    have hne : pc' ≠ pc := fun he => hhole (congrArg some he.symm)
    obtain ⟨b, hb, hidx⟩ := h.lines pc' hpc (fun he => hne (hg pc' he)) hl
    refine ⟨b, ?_, hidx⟩
    rw [← hb]
    exact congrArg Option.join (HashMap.remove_of_ne hne)
  case pages =>
    intro hf
    refine (hpb hf).congr fun p pc' => ?_
    have hcov : Covers { c with cache := c.cache.remove pc, ownerEntries := oe, pageBlocks := pb } pc' p ↔ pc' ≠ pc ∧ c.Covers pc' p := by
      unfold Covers
      dsimp only
      rw [HashMap.remove_apply]
      split
      · rename_i he
        exact ⟨fun ⟨_, hb, _⟩ => (nomatch hb), fun hn => absurd he hn.1⟩
      · rename_i he
        exact ⟨fun hb => ⟨he, hb⟩, And.right⟩
    rw [hcov]
    tauto

/-- An operation after which the maps are exact, while owners and entries go. -/
structure Drops (fresh : Prop) (g : Gap) (c c' : OwnedCode) : Prop where
  exact : Exact fresh c'.uses g c'
  owners : OwnersGo c c'
  entries : EntriesGo c c'

theorem covers_remove (m : HashMap U64 (List U64)) (b : HashMap JitOwnerId (List U64)) :
    EntriesGo c { c with cache := c.cache.remove pc, ownerEntries := b, pageBlocks := m } where
  cache pc' := by
    change c.cache.remove pc pc' = none ∨ c.cache.remove pc pc' = c.cache pc'
    rw [HashMap.remove_apply]
    split
    · exact .inl rfl
    · exact .inr rfl
  covers pc' p := by
    rintro ⟨blk, hb, hp⟩
    refine ⟨blk, ?_, hp⟩
    change (c.cache.remove pc pc').join = some blk at hb
    rw [HashMap.remove_apply] at hb
    split at hb
    · cases hb
    · exact hb
  exits _ := .inr rfl

/-- A slot keeps its references where the entry had none. -/
theorem uses_removed (hc : c'.cache = c.cache.remove pc) (hn : c.slotAt pc = none) : c'.uses = c.uses := by
  funext i
  have := uses_update (slotAt_removed hc) i
  rw [hn, if_neg fun he => nomatch he] at this
  exact this

/-- The reference of an entry that is gone is given up. -/
theorem Exact.releaseRemoved (h : Exact fresh c.uses g c') (hc : c'.cache = c.cache.remove pc) (hs : c.slotAt pc = some i) (evicted : Bool) :
    Releases fresh (c'.releaseSlot i evicted).uses g c' (c'.releaseSlot i evicted) := by
  have hpos : 0 < c.uses i := Nat.pos_of_ne_zero fun hz => uses_eq_zero.1 hz pc hs
  have hrel := h.releaseSlot hpos (fun hone => by
    have := uses_update (slotAt_removed hc) i
    rw [if_pos hs, if_neg fun he => nomatch he] at this
    exact uses_eq_zero.1 (by omega)) evicted
  have huses : (c'.releaseSlot i evicted).uses = fun j => if j = i then c.uses i - 1 else c.uses j := by
    funext j
    have hj := uses_update (slotAt_removed (hrel.cache.trans hc)) j
    rw [hs, if_neg (fun he : none = some j => nomatch he)] at hj
    split
    · rename_i he
      rw [he, if_pos rfl] at hj
      rw [he]
      exact (Nat.sub_eq_of_eq_add hj.symm).symm
    · rename_i he
      rw [if_neg fun hn => he (Option.some.inj hn).symm] at hj
      exact hj
  rw [huses]
  exact hrel

/-- **A cache entry goes**, and its slot with it if it was the last. -/
theorem Exact.cacheRemove {evicted : Bool} (h : Exact fresh c.uses g c) (hg : ∀ pc', g.line = some pc' → pc' = pc)
    (hr : c.cacheRemoveWithReason pc evicted = some c') :
    Drops fresh { g with line := some pc } c c' ∧ c'.cache = c.cache.remove pc ∧ c'.dispatch = c.dispatch := by
  have hnot : ∀ o, c.slotAt pc = none → ∀ pc', c.ownerAt pc' = some o → pc' ≠ pc := by
    intro o hn pc' ha he
    obtain ⟨i, hi, -⟩ := ownerAt_eq_some.1 ha
    rw [he, hn] at hi
    cases hi
  unfold cacheRemoveWithReason at hr
  cases hb : (c.cache pc).join with
  | none =>
    rw [hb] at hr
    have hr := Option.some.inj hr
    have hn : c.slotAt pc = none := by
      rw [slotAt_join, hb]
      rfl
    have hcov : ∀ pc' p, c.Covers pc' p → pc' ≠ pc := by
      rintro pc' p ⟨b, hb', -⟩ he
      rw [he, hb] at hb'
      cases hb'
    have h1 := h.entryGone hg (h.entries.congr fun o pc' => ⟨fun hR => ⟨hR, hnot o hn pc' hR.1⟩, And.left⟩)
      fun hf => (h.pages hf).congr fun p pc' => ⟨fun hR => ⟨hR, hcov pc' p hR.1⟩, And.left⟩
    rw [← hr]
    refine ⟨⟨?_, h.ownersGo rfl rfl rfl rfl rfl rfl, covers_remove _ _⟩, rfl, rfl⟩
    rw [uses_removed rfl hn]
    exact h1
  | some b =>
    rw [hb] at hr
    dsimp only at hr
    have hpages : fresh → ((c.blockPhysicalPages b).foldl (fun blocks page => dropFrom blocks page pc) c.pageBlocks).Lists
        fun p pc' => (c.Covers pc' p ∧ g.page ≠ some p) ∧ pc' ≠ pc := by
      refine fun hf => (dropPages_lists (h.pages hf) pc _).congr fun p pc' => and_congr_right fun hR => ?_
      refine ⟨fun hn he => hn ⟨?_, he⟩, fun hn he => hn he.2⟩
      obtain ⟨b', hb', hp⟩ := hR.1
      rw [he, hb] at hb'
      exact Option.some.inj hb' ▸ hp
    split at hr
    · rename_i hidx
      obtain ⟨o, ho, hr⟩ := Option.bind_eq_some_iff.1 hr
      have hr := Option.some.inj hr
      have hs := slotAt_of_block hb hidx
      have hat : c.ownerAt pc = some o := ownerAt_eq_some.2 ⟨_, hs, ho⟩
      have h1 := h.entryGone hg ((dropFrom_lists h.entries o pc).congr fun o' pc' => and_congr_right fun hR =>
        ⟨fun hn he => hn ⟨Option.some.inj ((he ▸ hR.1 : c.ownerAt pc = some o').symm.trans hat), he⟩, fun hn he => hn he.2⟩) hpages
      have hrel := h1.releaseRemoved rfl hs evicted
      have hgo : OwnersGo c { c with
          cache := c.cache.remove pc
          ownerEntries := dropFrom c.ownerEntries o pc
          pageBlocks := (c.blockPhysicalPages b).foldl (fun blocks page => dropFrom blocks page pc) c.pageBlocks } :=
        h.ownersGo rfl rfl rfl rfl rfl rfl
      rw [← hr]
      exact ⟨⟨hrel.exact, hgo.trans hrel.owners, (covers_remove _ _).trans hrel.entries⟩, hrel.cache, hrel.dispatch⟩
    · rename_i hidx
      have hr := Option.some.inj hr
      have hn : c.slotAt pc = none := by
        rw [slotAt_join, hb]
        exact if_neg hidx
      have h1 := h.entryGone hg (h.entries.congr fun o pc' => ⟨fun hR => ⟨hR, hnot o hn pc' hR.1⟩, And.left⟩) hpages
      rw [← hr]
      refine ⟨⟨?_, h.ownersGo rfl rfl rfl rfl rfl rfl, covers_remove _ _⟩, rfl, rfl⟩
      rw [uses_removed rfl hn]
      exact h1

end OwnedCode
end Lish
