import Lish.Core.MmuWalk
import Lish.Core.Tlb
/-!
# Settled — translations whose accessed and dirty bits are set

A walk sets the accessed and dirty bits of the leaf it takes and clears none.  Where they are set already it writes nothing,
and entries that gain such bits keep a translation settled.
-/
namespace Lish

open Tables

/-- The entry is the same but for accessed and dirty bits it may have gained. -/
def Gained (p p' : Option U64) : Prop := ∃ b, b &&& adBits = b ∧ p' = p.map (· ||| b)

namespace Gained

theorem refl (p : Option U64) : Gained p p := ⟨0, BitVec.zero_and, by cases p <;> simp⟩

theorem trans {p q r : Option U64} (h : Gained p q) (h' : Gained q r) : Gained p r := by
  obtain ⟨b, hb, rfl⟩ := h
  obtain ⟨c, hc, rfl⟩ := h'
  refine ⟨b ||| c, ?_, ?_⟩
  · rw [BitVec.and_comm, BitVec.and_or_distrib_left, BitVec.and_comm, hb, BitVec.and_comm, hc]
  · cases p with
    | none => rfl
    | some v => exact congrArg some (BitVec.or_assoc v b c)

theorem adFree_or {b : U64} (hb : b &&& adBits = b) (p : U64) : adFree (p ||| b) = adFree p := by
  apply BitVec.eq_of_getLsbD_eq
  intro i hi
  have hbit := congrArg (fun x : U64 => x.getLsbD i) hb
  unfold adFree
  simp only [BitVec.getLsbD_and, BitVec.getLsbD_or, BitVec.getLsbD_not, hi, decide_true, Bool.true_and] at hbit ⊢
  cases hx : b.getLsbD i with
  | false => rw [Bool.or_false]
  | true =>
    rw [hx, Bool.true_and] at hbit
    rw [hbit]
    simp

theorem adEq {p p' : Option U64} (h : Gained p p') : AdEq p' p := by
  obtain ⟨b, hb, rfl⟩ := h
  cases p with
  | none => rfl
  | some v => exact congrArg some (adFree_or hb v)

end Gained

namespace Tables

/-- Two leaves, the second with accessed and dirty bits it may have gained. -/
structure LeafGained (l l' : Machine.Leaf) : Prop where
  pteAddr : l'.pteAddr = l.pteAddr
  level : l'.level = l.level
  pte : ∃ b, b &&& adBits = b ∧ l'.pte = l.pte ||| b

variable {word word' : Tables}

/-- **A leaf** of tables that gained bits was one before. -/
theorem leafAt_gained (va : U64) (level : ℕ) (table : U64) (h : ∀ a ∈ pathAt word va level table, Gained (word a) (word' a))
    {leaf' : Machine.Leaf} (hl : leafAt word' va level table = some leaf') :
    ∃ leaf, leafAt word va level table = some leaf ∧ LeafGained leaf leaf' := by
  induction level generalizing table with
  | zero =>
    obtain ⟨b, hb, hw'⟩ := h (Machine.pteAddrAt table va 0) (by rw [pathAt]; exact List.mem_cons_self ..)
    rw [leafAt] at hl ⊢
    cases hw : word (Machine.pteAddrAt table va 0) with
    | none =>
      rw [hw'] at hl
      rw [hw] at hl
      cases hl
    | some p =>
      rw [hw', hw] at hl
      dsimp only [Option.map_some] at hl ⊢
      rw [entryOf_of_adFree (Gained.adFree_or hb p)] at hl
      cases he : Machine.entryOf p with
      | bad => rw [he] at hl; cases hl
      | table next => rw [he] at hl; cases hl
      | leaf =>
        rw [he] at hl
        obtain rfl := Option.some.inj hl
        exact ⟨_, rfl, rfl, rfl, b, hb, rfl⟩
  | succ level ih =>
    obtain ⟨b, hb, hw'⟩ := h (Machine.pteAddrAt table va (level + 1)) (by rw [pathAt]; exact List.mem_cons_self ..)
    rw [leafAt] at hl ⊢
    rw [pathAt] at h
    cases hw : word (Machine.pteAddrAt table va (level + 1)) with
    | none =>
      rw [hw', hw] at hl
      cases hl
    | some p =>
      rw [hw', hw] at hl
      rw [hw] at h
      dsimp only [Option.map_some] at hl h ⊢
      rw [entryOf_of_adFree (Gained.adFree_or hb p)] at hl
      cases he : Machine.entryOf p with
      | bad => rw [he] at hl; cases hl
      | table next =>
        rw [he] at hl h
        exact ih next (fun a ha => h a (List.mem_cons_of_mem _ ha)) hl
      | leaf =>
        rw [he] at hl
        obtain rfl := Option.some.inj hl
        exact ⟨_, rfl, rfl, rfl, b, hb, rfl⟩

/-- The leaf of an address, if the paging mode has one. -/
def leafOf (word : Tables) (satp va : U64) : Option Machine.Leaf :=
  (levelsOf satp).bind fun levels => leafAt word va (levels - 1) (rootOf satp)

/-- The leaf of an address has every bit an access would set. -/
def AllSet (word : Tables) (satp : U64) (access : Access) (va : U64) : Prop :=
  ∀ leaf, leafOf word satp va = some leaf → Machine.updatePte access leaf.pte = leaf.pte

/-- The tables give this address, with no bit left to set. -/
def Settled (word : Tables) (satp : U64) (q : Query) (pa : U64) : Prop :=
  walk word satp q.ctx q.access q.va = some pa ∧ (bare satp q.ctx q.access = false → AllSet word satp q.access q.va)

theorem updatePte_eq (access : Access) : ∃ b, b &&& adBits = b ∧ ∀ p, Machine.updatePte access p = p ||| b := by
  unfold Machine.updatePte
  dsimp only
  split_ifs
  · exact ⟨(1#64 <<< 6) ||| (1#64 <<< 7), by decide, fun p => BitVec.or_assoc ..⟩
  · exact ⟨1#64 <<< 6, by decide, fun _ => rfl⟩

theorem updatePte_or (access : Access) (p b : U64) : Machine.updatePte access (p ||| b) = Machine.updatePte access p ||| b := by
  obtain ⟨c, -, hc⟩ := updatePte_eq access
  rw [hc, hc, BitVec.or_assoc, BitVec.or_assoc, BitVec.or_comm b]

theorem updatePte_idem (access : Access) (p : U64) :
    Machine.updatePte access (Machine.updatePte access p) = Machine.updatePte access p := by
  obtain ⟨b, -, hb⟩ := updatePte_eq access
  rw [hb, hb, BitVec.or_assoc, BitVec.or_self]

/-- The walk of a translated address has levels, a canonical address and a leaf. -/
theorem walk_leaf {word : Tables} {satp ctx : U64} {access : Access} {va pa : U64} (hb : bare satp ctx access = false)
    (h : walk word satp ctx access va = some pa) :
    ∃ levels, levelsOf satp = some levels ∧ canonical levels va = true ∧
      path word satp ctx access va = pathAt word va (levels - 1) (rootOf satp) := by
  unfold walk at h
  unfold path
  rw [hb, if_neg Bool.false_ne_true] at h ⊢
  cases hl : levelsOf satp with
  | none => rw [hl] at h; cases h
  | some levels =>
    rw [hl] at h
    dsimp only [Option.bind_some] at h
    cases hc : canonical levels va with
    | false => rw [hc] at h; cases h
    | true => exact ⟨levels, rfl, hc, by dsimp only; rw [hc]; rfl⟩

/-- **Entries that gain bits** keep a translation settled. -/
theorem Settled.gained {satp : U64} {q : Query} {pa : U64} (h : Settled word satp q pa)
    (hg : ∀ a ∈ path word satp q.ctx q.access q.va, Gained (word a) (word' a)) : Settled word' satp q pa := by
  refine ⟨(walk_congr fun a ha => (hg a ha).adEq).trans h.1, fun hb leaf' hl => ?_⟩
  obtain ⟨levels, hlev, -, hpath⟩ := walk_leaf hb h.1
  unfold leafOf at hl
  rw [hlev] at hl
  rw [hpath] at hg
  obtain ⟨leaf, hleaf, -, -, b, -, hpte⟩ := leafAt_gained q.va (levels - 1) (rootOf satp) hg hl
  have hset := h.2 hb leaf (by unfold leafOf; rw [hlev]; exact hleaf)
  rw [hpte, updatePte_or, hset]

/-- A settled translation is settled for its page. -/
theorem Settled.page {satp ctx : U64} {access : Access} {va va' pa : U64} (h : Settled word satp ⟨access, ctx, va⟩ pa)
    (hp : SamePage va va') : Settled word satp ⟨access, ctx, va'⟩ (va' + (pa - va)) := by
  refine ⟨hp.walk word satp ctx access h.1, fun hb leaf hl => h.2 hb leaf ?_⟩
  unfold leafOf at hl ⊢
  cases hlev : levelsOf satp with
  | none => rw [hlev] at hl; cases hl
  | some levels =>
    rw [hlev] at hl
    dsimp only [Option.bind_some] at hl ⊢
    rw [(hp.leafAt word _ _).1]
    exact hl

end Tables
namespace Machine

variable {β : Type} [RamBus β]

/-- The tables are the same but for bits they gained. -/
def TablesGained (bus bus' : β) : Prop := ∀ a, Aligned a → Gained (tables bus a) (tables bus' a)

theorem TablesGained.refl (bus : β) : TablesGained bus bus := fun _ _ => .refl _

theorem updatePte_gained (access : Access) (p : U64) : Gained (some p) (some (updatePte access p)) := by
  obtain ⟨b, hb, h⟩ := updatePte_eq access
  exact ⟨b, hb, by rw [h]; rfl⟩

/-- What taking a leaf does to the tables. -/
structure Takes (m m' : Machine β) (access : Access) (leaf : Leaf) (ok : Prop) : Prop where
  gained : TablesGained m.bus m'.bus
  set : ok → tables m'.bus leaf.pteAddr = some (updatePte access leaf.pte)
  still : updatePte access leaf.pte = leaf.pte → m'.bus = m.bus

theorem takeLeaf_takes {m : Machine β} (s : SysCsrs) (va : U64) (access : Access) {leaf : Leaf} (ha : Aligned leaf.pteAddr)
    (hw : tables m.bus leaf.pteAddr = some leaf.pte) :
    Takes m (m.takeLeaf s va access leaf m.bus).2 access leaf (∃ pa, (m.takeLeaf s va access leaf m.bus).1 = .ok pa) := by
  unfold takeLeaf
  dsimp only
  split_ifs with hallow hset
  · exact ⟨.refl _, fun ⟨_, h⟩ => (nomatch h), fun _ => rfl⟩
  · have hin := inRam_of_word hw
    obtain ⟨bus', hwr, hram⟩ := RamBus.write_ram .w8 m.bus leaf.pteAddr (updatePte access leaf.pte) hin
    have hword : ∀ a, Aligned a → tables bus' a = if a = leaf.pteAddr then some (updatePte access leaf.pte) else tables m.bus a :=
      fun a hal => by
        unfold tables
        rw [hram]
        exact ramWord_store hal ha hin
    rw [hwr]
    refine ⟨fun a hal => ?_, fun _ => (hword _ ha).trans (if_pos rfl), fun h => absurd h hset⟩
    dsimp only
    rw [hword a hal]
    split_ifs with heq
    · rw [heq, hw]
      exact updatePte_gained access leaf.pte
    · exact .refl _
  · exact ⟨.refl _, fun _ => by rw [not_not.1 hset]; exact hw, fun _ => rfl⟩

/-- What a walk does to the tables: the leaf it takes is set, and nothing is written if it was. -/
structure Settles (m m' : Machine β) (satp : U64) (access : Access) (va : U64) (ok : Prop) : Prop where
  gained : TablesGained m.bus m'.bus
  set : ok → AllSet (tables m'.bus) satp access va
  still : AllSet (tables m.bus) satp access va → m'.bus = m.bus

theorem walkTables_settles {m : Machine β} {s : SysCsrs} {levels : ℕ} {va : U64} {access : Access}
    (hl : levelsOf s.satp = some levels)
    (h : canonical levels va = true → ∀ a ∈ pathAt (tables m.bus) va (levels - 1) (rootOf s.satp), TableAccess m.bus a) :
    Settles m (m.walkTables s levels va access).2 s.satp access va (∃ pa, (m.walkTables s levels va access).1 = .ok pa) := by
  have hleaf : ∀ word : Tables, leafOf word s.satp va = leafAt word va (levels - 1) (rootOf s.satp) := fun word => by
    unfold leafOf
    rw [hl]
    rfl
  unfold walkTables
  dsimp only
  cases hc : canonical levels va with
  | false =>
    unfold canonical at hc
    rw [decide_eq_false_iff_not, not_or] at hc
    rw [if_pos hc]
    refine ⟨.refl _, ?_, fun _ => rfl⟩
    rintro ⟨_, h⟩
    cases h
  | true =>
    have hn := hc
    unfold canonical at hn
    rw [if_neg (not_and_or.2 ((of_decide_eq_true hn).imp not_not.2 not_not.2)), ← rootOf, findLeaf_eq _ _ _ _ _ (h hc)]
    cases hf : leafAt (tables m.bus) va (levels - 1) (rootOf s.satp) with
    | none =>
      refine ⟨.refl _, ?_, fun _ => rfl⟩
      rintro ⟨_, h⟩
      cases h
    | some leaf =>
      obtain ⟨hmem, hword⟩ := leafAt_mem _ _ _ _ hf
      have haligned := aligned_pathAt (tables m.bus) va (levels - 1) (show (rootOf s.satp).toNat % 4096 = 0 from table_aligned _)
      have ht := takeLeaf_takes (m := m) s va access (haligned _ hmem) hword
      refine ⟨ht.gained, fun hok leaf' hl' => ?_, fun hs => ht.still (hs leaf (by rw [hleaf]; exact hf))⟩
      rw [hleaf] at hl'
      obtain ⟨leaf₀, h₀, hg⟩ := leafAt_gained va (levels - 1) (rootOf s.satp)
        (fun a ha => ht.gained a (haligned a ha)) hl'
      rw [hf] at h₀
      obtain rfl := Option.some.inj h₀
      have hpte := (leafAt_mem _ _ _ _ hl').2
      rw [hg.pteAddr, ht.set hok] at hpte
      rw [← Option.some.inj hpte, updatePte_idem]

/-- **A walk** leaves the leaf it takes with its bits set, and writes nothing where they were. -/
theorem translateSlow_settles {m : Machine β} {s : SysCsrs} (hs : m.cpu.sys = some s) {va : U64} {access : Access}
    (h : TablesInRam m va access) (hb : bare s.satp m.cpu.translationContext access = false) :
    Settles m (m.translateSlow va access).2 s.satp access va (∃ pa, (m.translateSlow va access).1 = .ok pa) := by
  have h := h s hs
  unfold path at h
  rw [hb, if_neg Bool.false_ne_true] at h
  unfold bare at hb
  rw [Cpu.modeOf_context hs, decide_eq_false_iff_not] at hb
  unfold translateSlow
  rw [hs]
  dsimp only
  rw [if_neg hb]
  have hcan : ∀ levels, levelsOf s.satp = some levels → canonical levels va = true →
      ∀ a ∈ pathAt (tables m.bus) va (levels - 1) (rootOf s.satp), TableAccess m.bus a := fun levels hl hc => by
    rw [hl] at h
    dsimp only at h
    rwa [hc] at h
  by_cases h8 : s.satp >>> 60 = 8
  · have hl : levelsOf s.satp = some 3 := if_pos h8
    rw [if_pos h8]
    exact walkTables_settles hl (hcan 3 hl)
  · by_cases h9 : s.satp >>> 60 = 9
    · have hl : levelsOf s.satp = some 4 := (if_neg h8).trans (if_pos h9)
      rw [if_neg h8, if_pos h9]
      exact walkTables_settles hl (hcan 4 hl)
    · rw [if_neg h8, if_neg h9]
      exact ⟨.refl _, fun ⟨_, h⟩ => (nomatch h), fun _ => rfl⟩

end Machine
end Lish
