import Lish.Core.RamWord
/-!
# MmuWalk — the walk of the hart follows the page tables

`translateSlow` answers what the tables in RAM say in the permission context of the hart, and changes no more of them than
accessed and dirty bits.
-/
namespace Lish

open Tables

/-! ## Permission contexts -/

/-- A permission context, from the values that make it up. -/
def contextOf (mode data : Mode) (sum mxr : Bool) : U64 :=
  mode.bits ||| (data.bits <<< 2) ||| ((if sum then 1 else 0 : U64) <<< 4) ||| ((if mxr then 1 else 0 : U64) <<< 5)

theorem contextOf_spec (mode data : Mode) (sum mxr : Bool) :
    (contextOf mode data sum mxr).toNat < 64 ∧ (contextOf mode data sum mxr).getLsbD 4 = sum ∧
      (contextOf mode data sum mxr).getLsbD 5 = mxr ∧ Mode.fromBits (contextOf mode data sum mxr) = mode ∧
      Mode.fromBits (contextOf mode data sum mxr >>> 2) = data := by
  cases mode <;> cases data <;> cases sum <;> cases mxr <;> decide

namespace Cpu

theorem translationContext_eq {c : Cpu} {s : SysCsrs} (hs : c.sys = some s) :
    c.translationContext = contextOf s.mode (dataMode s) (decide (s.mstatus &&& MSTATUS_SUM ≠ 0))
      (decide (s.mstatus &&& MSTATUS_MXR ≠ 0)) := by
  unfold translationContext contextOf
  rw [hs]
  simp only [decide_eq_true_eq]

theorem translationContext_lt (c : Cpu) : c.translationContext.toNat < 64 := by
  cases hs : c.sys with
  | none =>
    unfold translationContext
    rw [hs]
    decide
  | some s =>
    rw [translationContext_eq hs]
    exact (contextOf_spec ..).1

theorem modeOf_context {c : Cpu} {s : SysCsrs} (hs : c.sys = some s) (access : Access) :
    modeOf c.translationContext access = effMode s access := by
  obtain ⟨-, -, -, h1, h2⟩ := contextOf_spec s.mode (dataMode s) (decide (s.mstatus &&& MSTATUS_SUM ≠ 0))
    (decide (s.mstatus &&& MSTATUS_MXR ≠ 0))
  rw [translationContext_eq hs]
  unfold modeOf effMode
  cases access with
  | fetch => simpa using h1
  | load => simpa [dataMode] using h2
  | store => simpa [dataMode] using h2

end Cpu

namespace Machine

variable {β : Type} [RamBus β]

/-- The page tables of a bus. -/
def tables (bus : β) : Tables := ramWord (RamBus.ram bus)

/-- An entry is in RAM, or there is nothing at its address. -/
def TableAccess (bus : β) (a : U64) : Prop := InRam (RamBus.ram bus) a 8 ∨ ∃ e, Bus.read .w8 bus a = (.error e, bus)

/-- The tables are the same but for accessed and dirty bits. -/
def AdSame (bus bus' : β) : Prop := ∀ a, Aligned a → AdEq (tables bus' a) (tables bus a)

theorem AdSame.refl (bus : β) : AdSame bus bus := fun _ _ => rfl

theorem read_table {bus : β} {a : U64} (h : TableAccess bus a) :
    (∃ pte, tables bus a = some pte ∧ Bus.read .w8 bus a = (.ok pte, bus)) ∨
      (tables bus a = none ∧ ∃ e, Bus.read .w8 bus a = (.error e, bus)) := by
  unfold tables ramWord
  by_cases hin : InRam (RamBus.ram bus) a 8
  · rw [if_pos hin]
    exact Or.inl ⟨_, rfl, RamBus.read_ram .w8 bus a hin⟩
  · rw [if_neg hin]
    exact Or.inr ⟨rfl, h.resolve_left hin⟩

/-- **The walk loop** answers the leaf of the tables. -/
theorem findLeaf_eq (access : Access) (va : U64) (level : ℕ) (table : U64) (bus : β)
    (h : ∀ a ∈ pathAt (tables bus) va level table, TableAccess bus a) :
    findLeaf access va level table bus = (match leafAt (tables bus) va level table with
      | none => .error (fault access va)
      | some leaf => .ok leaf, bus) := by
  induction level generalizing table with
  | zero =>
    rw [pathAt] at h
    rw [findLeaf, leafAt]
    rcases read_table (h _ (List.mem_cons_self ..)) with ⟨pte, hw, hr⟩ | ⟨hw, e, hr⟩
    · rw [hr, hw]
      dsimp only
      cases entryOf pte with
      | bad => rfl
      | table next => rfl
      | leaf => rfl
    · rw [hr, hw]
  | succ level ih =>
    rw [pathAt] at h
    rw [findLeaf, leafAt]
    rcases read_table (h _ (List.mem_cons_self ..)) with ⟨pte, hw, hr⟩ | ⟨hw, e, hr⟩
    · rw [hw] at h
      rw [hr, hw]
      dsimp only at h ⊢
      cases he : entryOf pte with
      | bad => rfl
      | table next =>
        rw [he] at h
        exact ih next fun a ha => h a (List.mem_cons_of_mem _ ha)
      | leaf => rfl
    · rw [hr, hw]

/-- The leaf found is the word at its address, which the walk has read. -/
theorem leafAt_mem (word : Tables) (va : U64) (level : ℕ) (table : U64) {leaf : Leaf}
    (h : leafAt word va level table = some leaf) :
    leaf.pteAddr ∈ pathAt word va level table ∧ word leaf.pteAddr = some leaf.pte := by
  induction level generalizing table with
  | zero =>
    rw [leafAt] at h
    rw [pathAt]
    cases hw : word (pteAddrAt table va 0) with
    | none => rw [hw] at h; cases h
    | some pte =>
      rw [hw] at h
      dsimp only at h
      cases he : entryOf pte <;> rw [he] at h <;> cases h
      exact ⟨List.mem_cons_self .., hw⟩
  | succ level ih =>
    rw [leafAt] at h
    rw [pathAt]
    cases hw : word (pteAddrAt table va (level + 1)) with
    | none => rw [hw] at h; cases h
    | some pte =>
      rw [hw] at h
      dsimp only at h ⊢
      cases he : entryOf pte with
      | bad => rw [he] at h; cases h
      | table next =>
        rw [he] at h
        obtain ⟨h1, h2⟩ := ih next h
        exact ⟨List.mem_cons_of_mem _ h1, h2⟩
      | leaf =>
        rw [he] at h
        cases h
        exact ⟨List.mem_cons_self .., hw⟩

theorem adFree_updatePte (access : Access) (pte : U64) : adFree (updatePte access pte) = adFree pte := by
  have h6 : adFree (pte ||| (1#64 <<< 6)) = adFree pte := by
    unfold adFree
    rw [BitVec.and_comm, BitVec.and_or_distrib_left, show ~~~adBits &&& (1#64 <<< 6) = 0#64 from by decide,
      BitVec.or_zero, BitVec.and_comm]
  have h7 : ∀ p, adFree (p ||| (1#64 <<< 7)) = adFree p := fun p => by
    unfold adFree
    rw [BitVec.and_comm, BitVec.and_or_distrib_left, show ~~~adBits &&& (1#64 <<< 7) = 0#64 from by decide,
      BitVec.or_zero, BitVec.and_comm]
  unfold updatePte
  dsimp only
  split_ifs
  · rw [h7, h6]
  · exact h6

/-- The update of an entry succeeds and keeps the tables but for these bits. -/
theorem write_updatePte {bus : β} (access : Access) {a pte : U64} (ha : Aligned a) (hw : tables bus a = some pte) :
    ∃ bus', Bus.write .w8 bus a (updatePte access pte) = (.ok (), bus') ∧ AdSame bus bus' := by
  have hin := inRam_of_word hw
  obtain ⟨bus', hwr, hram⟩ := RamBus.write_ram .w8 bus a (updatePte access pte) hin
  refine ⟨bus', hwr, fun b hb => ?_⟩
  unfold tables at hw ⊢
  rw [hram, show Width.w8.bytes = 8 from rfl, ramWord_store hb ha hin]
  by_cases hba : b = a
  · subst hba
    rw [if_pos rfl, hw]
    exact congrArg some (adFree_updatePte access pte)
  · rw [if_neg hba]
    rfl

/-- The translation the tables give in the hart's context. -/
def walked (m : Machine β) (s : SysCsrs) (va : U64) (access : Access) : Option U64 :=
  walk (tables m.bus) s.satp m.cpu.translationContext access va

/-- The entries a translation reads are memory. -/
def TablesInRam (m : Machine β) (va : U64) (access : Access) : Prop :=
  ∀ s, m.cpu.sys = some s → ∀ a ∈ path (tables m.bus) s.satp m.cpu.translationContext access va, TableAccess m.bus a

/-- The result of a translation: an address or the fault of the access. -/
def orFault (access : Access) (va : U64) : Option U64 → Except Exception U64
  | none => .error (fault access va)
  | some pa => .ok pa

/-- What a walk may do: answer what the tables say, and fill the row of the access with it. -/
def Walks (m : Machine β) (va : U64) (access : Access) (w : Option U64) (r : Except Exception U64 × Machine β) : Prop :=
  r.1 = orFault access va w ∧
    (r.2 = m ∨ ∃ pa bus', w = some pa ∧ r.2 = ⟨fillTlb m.cpu access va pa, bus'⟩ ∧ AdSame m.bus bus')

theorem takeLeaf_walks {m : Machine β} {s : SysCsrs} {va : U64} {access : Access} {leaf : Leaf} (ha : Aligned leaf.pteAddr)
    (hw : tables m.bus leaf.pteAddr = some leaf.pte) :
    Walks m va access (if leaf.allows (Cpu.effMode s access) (decide (s.mstatus &&& MSTATUS_SUM ≠ 0))
      (decide (s.mstatus &&& MSTATUS_MXR ≠ 0)) access then some (leaf.pa va) else none)
      (m.takeLeaf s va access leaf m.bus) := by
  unfold takeLeaf
  dsimp only
  cases leaf.allows (Cpu.effMode s access) (decide (s.mstatus &&& MSTATUS_SUM ≠ 0))
      (decide (s.mstatus &&& MSTATUS_MXR ≠ 0)) access with
  | false => exact ⟨rfl, Or.inl rfl⟩
  | true =>
    by_cases hp : updatePte access leaf.pte ≠ leaf.pte
    · obtain ⟨bus', hwr, hsame⟩ := write_updatePte access ha hw
      rw [if_pos hp, hwr]
      exact ⟨rfl, Or.inr ⟨_, bus', rfl, rfl, hsame⟩⟩
    · rw [if_neg hp]
      exact ⟨rfl, Or.inr ⟨_, m.bus, rfl, rfl, .refl _⟩⟩

theorem walkTables_walks {m : Machine β} {s : SysCsrs} {levels : ℕ} {va : U64} {access : Access}
    (h : canonical levels va = true → ∀ a ∈ pathAt (tables m.bus) va (levels - 1) (rootOf s.satp), TableAccess m.bus a) :
    Walks m va access
      (if !canonical levels va then none
        else (leafAt (tables m.bus) va (levels - 1) (rootOf s.satp)).bind fun leaf =>
          if leaf.allows (Cpu.effMode s access) (decide (s.mstatus &&& MSTATUS_SUM ≠ 0))
            (decide (s.mstatus &&& MSTATUS_MXR ≠ 0)) access then some (leaf.pa va) else none)
      (m.walkTables s levels va access) := by
  unfold walkTables
  dsimp only
  cases hc : canonical levels va with
  | false =>
    unfold canonical at hc
    rw [decide_eq_false_iff_not, not_or] at hc
    rw [if_pos hc]
    exact ⟨rfl, Or.inl rfl⟩
  | true =>
    have hn := hc
    unfold canonical at hn
    rw [if_neg (not_and_or.2 ((of_decide_eq_true hn).imp not_not.2 not_not.2)), ← rootOf, findLeaf_eq _ _ _ _ _ (h hc)]
    cases hl : leafAt (tables m.bus) va (levels - 1) (rootOf s.satp) with
    | none => exact ⟨rfl, Or.inl rfl⟩
    | some leaf =>
      obtain ⟨hmem, hword⟩ := leafAt_mem _ _ _ _ hl
      exact takeLeaf_walks (aligned_pathAt _ _ _ (table_aligned _) _ hmem) hword

/-- **The walk** answers what the tables say; when it answers a translated address it has filled the row of the access. -/
theorem translateSlow_walks {m : Machine β} {s : SysCsrs} (hs : m.cpu.sys = some s) {va : U64} {access : Access}
    (h : TablesInRam m va access) : Walks m va access (walked m s va access) (m.translateSlow va access) := by
  obtain ⟨-, hsum, hmxr, -, -⟩ := contextOf_spec s.mode (Cpu.dataMode s) (decide (s.mstatus &&& MSTATUS_SUM ≠ 0))
    (decide (s.mstatus &&& MSTATUS_MXR ≠ 0))
  rw [← Cpu.translationContext_eq hs] at hsum hmxr
  have hmode := Cpu.modeOf_context hs access
  have h := h s hs
  unfold path bare levelsOf at h
  unfold walked walk bare levelsOf translateSlow
  rw [hmode] at h ⊢
  rw [hs, hsum, hmxr]
  dsimp only
  by_cases hb : s.satp >>> 60 = 0 ∨ Cpu.effMode s access = .machine
  · rw [if_pos hb, decide_eq_true hb]
    exact ⟨rfl, Or.inl rfl⟩
  · rw [if_neg hb, decide_eq_false hb]
    rw [decide_eq_false hb] at h
    have hcan : ∀ levels, (∀ a ∈ (if (!canonical levels va) = true then []
        else pathAt (tables m.bus) va (levels - 1) (rootOf s.satp)), TableAccess m.bus a) →
        canonical levels va = true →
          ∀ a ∈ pathAt (tables m.bus) va (levels - 1) (rootOf s.satp), TableAccess m.bus a := fun levels hl hc => by
      rwa [hc] at hl
    by_cases h8 : s.satp >>> 60 = 8
    · rw [if_pos h8, if_pos h8]
      rw [if_pos h8] at h
      exact walkTables_walks (hcan 3 h)
    · by_cases h9 : s.satp >>> 60 = 9
      · rw [if_neg h8, if_neg h8, if_pos h9, if_pos h9]
        rw [if_neg h8, if_pos h9] at h
        exact walkTables_walks (hcan 4 h)
      · rw [if_neg h8, if_neg h8, if_neg h9, if_neg h9]
        exact ⟨rfl, Or.inl rfl⟩

/-! ## A translated address has its tables in RAM -/

theorem pathAt_isSome (word : Tables) (va : U64) (level : ℕ) (table : U64) {leaf : Leaf}
    (h : leafAt word va level table = some leaf) : ∀ a ∈ pathAt word va level table, (word a).isSome = true := by
  induction level generalizing table with
  | zero =>
    intro a ha
    rw [leafAt] at h
    rw [pathAt] at ha
    cases hw : word (pteAddrAt table va 0) with
    | none => rw [hw] at h; cases h
    | some pte =>
      rw [hw] at h ha
      dsimp only at h ha
      cases he : entryOf pte <;> rw [he] at h ha <;> cases h
      rw [List.mem_singleton.1 ha, hw]
      rfl
  | succ level ih =>
    intro a ha
    rw [leafAt] at h
    rw [pathAt] at ha
    cases hw : word (pteAddrAt table va (level + 1)) with
    | none => rw [hw] at h; cases h
    | some pte =>
      rw [hw] at h ha
      dsimp only at h ha
      rcases List.mem_cons.1 ha with rfl | ha
      · rw [hw]
        rfl
      · cases he : entryOf pte with
        | bad => rw [he] at h; cases h
        | leaf => rw [he] at ha; cases ha
        | table next =>
          rw [he] at h ha
          exact ih next h a ha

theorem path_isSome {word : Tables} {satp ctx : U64} {access : Access} {va pa : U64}
    (h : walk word satp ctx access va = some pa) : ∀ a ∈ path word satp ctx access va, (word a).isSome = true := by
  intro a ha
  unfold walk at h
  unfold path at ha
  by_cases hb : bare satp ctx access = true
  · rw [if_pos hb] at ha
    cases ha
  · rw [if_neg hb] at h ha
    cases hl : levelsOf satp with
    | none => rw [hl] at h; cases h
    | some levels =>
      rw [hl] at h ha
      dsimp only [Option.bind_some] at h ha
      split_ifs at h ha with hc
      obtain ⟨leaf, hleaf, -⟩ := Option.bind_eq_some_iff.1 h
      exact pathAt_isSome word va _ _ hleaf a ha

theorem tablesInRam_of_walked {m : Machine β} {s : SysCsrs} (hs : m.cpu.sys = some s) {va pa : U64} {access : Access}
    (h : walked m s va access = some pa) : TablesInRam m va access := by
  intro s' hs' a ha
  rw [hs] at hs'
  cases hs'
  obtain ⟨pte, hp⟩ := Option.isSome_iff_exists.1 (path_isSome h a ha)
  exact Or.inl (inRam_of_word hp)

end Machine
end Lish
