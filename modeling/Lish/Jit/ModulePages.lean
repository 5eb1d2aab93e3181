import Lish.Jit.LandingSites
/-!
# ModulePages — the code of a page's module is on its page

Only a landing brings code to a pc, and a page module has members on its page only; so no code of a live page module is elsewhere.
-/
namespace Lish

open OwnedCode JitState

namespace OwnedCode

variable {fresh : Prop} {f f' : ℤ → ℕ} {g g' : Gap} {c c' c'' : OwnedCode} {o : JitOwnerId} {B : JitOwnerId → U64 → Prop}

/-- Code that is at a pc was there, or was brought. -/
def Brings (B : JitOwnerId → U64 → Prop) (c c' : OwnedCode) :
    Prop := ∀ pc o, c'.ownerAt pc = some o → B o pc ∨ c.ownerAt pc = some o

theorem Brings.refl (c : OwnedCode) : Brings B c c := fun _ _ => .inr

theorem Brings.trans (h : Brings B c c') (h' : Brings B c' c'') : Brings B c c'' := fun pc o ho =>
  (h' pc o ho).elim .inl (h pc o)

theorem Brings.mono {B' : JitOwnerId → U64 → Prop} (h : Brings B c c') (hB : ∀ o pc, B o pc → B' o pc) :
    Brings B' c c' := fun pc o ho =>
  (h pc o ho).imp_left (hB o pc)

theorem Brings.of_go (he : EntriesGo c c') (ho : OwnersGo c c') : Brings B c c' := fun _ o hat => by
  obtain ⟨i, hi, hio⟩ := ownerAt_eq_some.1 hat
  exact .inr (ownerAt_eq_some.2 ⟨i, he.slotAt hi, ho.owner i o hio⟩)

theorem Brings.of_same (hc : c'.cache = c.cache) (ho : ∀ i o, c'.slotOwner i = some o → c.slotOwner i = some o) :
    Brings B c c' := fun pc o hat => by
  obtain ⟨i, hi, hio⟩ := ownerAt_eq_some.1 hat
  refine .inr (ownerAt_eq_some.2 ⟨i, ?_, ho i o hio⟩)
  unfold slotAt at hi ⊢
  rwa [hc] at hi

/-- An entry that came. -/
theorem Brings.insert {pc₀ : U64} {b : JitBlock} (hgo : OwnersGo c c') (hc : c'.cache = c.cache.insert pc₀ (some b))
    (ho : ∀ q, c.slotOwner b.idx = some q → q = o) : Brings (fun q pc => q = o ∧ pc = pc₀) c c' := fun pc q hat => by
  obtain ⟨i, hi, hio⟩ := ownerAt_eq_some.1 hat
  rw [slotAt_landed hc rfl] at hi
  split at hi
  · rename_i he
    split at hi
    · cases hi
      exact .inl ⟨ho q (hgo.owner _ _ hio), he⟩
    · cases hi
  · exact .inr (ownerAt_eq_some.2 ⟨i, hi, hgo.owner _ _ hio⟩)

/-- The code of the page modules is where it was, and no module comes. -/
theorem OnPages.of_brings (h : c.OnPages) (hb : Brings B c c')
    (hm : ∀ o key, c'.pageModuleOwner o = some key → c.pageModuleOwner o = some key)
    (hB : ∀ o pc, B o pc → c.pageModuleOwner o = none) : c'.OnPages := fun pc o key hat hkey => by
  have hold := hm o key hkey
  refine (hb pc o hat).elim (fun hn => ?_) fun hat => h pc o key hat hold
  rw [hB o pc hn] at hold
  cases hold

theorem PagesGo.keepsModule (h : PagesGo c c') (o : JitOwnerId) (key : PageKey) (hk : c'.pageModuleOwner o = some key) :
    c.pageModuleOwner o = some key := by
  rw [h.moduleOwner] at hk
  split at hk
  · exact hk
  · cases hk

end OwnedCode

namespace JitState

variable {g : Gap} {j j' : JitState} {settings : JitSettings} {i : ℤ} {o : JitOwnerId}

/-! ## Landings -/

theorem landMember_brings {pageModule : Bool} {p : PendingBlock} (h : Exact False j.uses g j.toOwnedCode) (hg : Gap.Landing g)
    (hx : j.regionExits i = none) (ho : ∀ q, j.slotOwner i = some q → q = o) (hr : j.landMember settings pageModule i p = some j') :
    Lands False g j.toOwnedCode j'.toOwnedCode ∧ Brings (fun q pc => q = o ∧ pc = p.pc) j.toOwnedCode j'.toOwnedCode := by
  unfold landMember at hr
  split at hr
  · cases hr
    exact ⟨Exact.lands_refl h, .refl _⟩
  · split at hr
    · cases hr
      exact ⟨Exact.lands_refl h, .refl _⟩
    · obtain ⟨hl, stamp, hc⟩ := Exact.landBlock h hg False.elim (fun hf => hf.elim) (fun _ => hx) hr
      exact ⟨hl, .insert hl.owners hc ho⟩

theorem landEntry_brings {p : PendingRegion} {e : U64} (h : Exact False j.uses g j.toOwnedCode) (hg : Gap.Landing g)
    (hx : ∀ r, j.regionExits i = some r → r.entries = p.entries) (hin : e ∈ p.entries) (ho : ∀ q, j.slotOwner i = some q → q = o)
    (hr : landEntry settings i p j e = some j') : Brings (fun q _ => q = o) j.toOwnedCode j'.toOwnedCode := by
  unfold landEntry at hr
  split at hr
  · cases hr
    exact .refl _
  · split at hr
    · cases hr
      exact .refl _
    · split at hr
      · cases hr
        exact .refl _
      · have h1 : Exact False j.stamp.uses g j.stamp.toOwnedCode := { h with }
        obtain ⟨hl, hc⟩ := Exact.install h1 hg (fun r _ hr => by
          rw [hx r hr]
          exact hin) hr
        have hb := Brings.insert (c := j.stamp.toOwnedCode) hl.owners hc ho
        exact fun pc q hat => (hb pc q hat).imp_left And.left

theorem landEntries_brings {p : PendingRegion} (hg : Gap.Landing g) (l : List U64) :
    ∀ {j j' : JitState}, Exact False j.uses g j.toOwnedCode → (∀ r, j.regionExits i = some r → r.entries = p.entries) →
      (∀ e ∈ l, e ∈ p.entries) → (∀ q, j.slotOwner i = some q → q = o) → l.foldlM (landEntry settings i p) j = some j' →
      Brings (fun q _ => q = o) j.toOwnedCode j'.toOwnedCode := by
  induction l with
  | nil =>
    intro j j' _ _ _ _ hr
    cases hr
    exact .refl _
  | cons e l ih =>
    intro j j' h hx hl ho hr
    rw [List.foldlM_cons] at hr
    obtain ⟨j₁, h₁, h₂⟩ := Option.bind_eq_some_iff.1 hr
    have hle := Exact.landEntry h hg hx (hl e List.mem_cons_self) h₁
    refine (landEntry_brings h hg hx (hl e List.mem_cons_self) ho h₁).trans
      (ih hle.exact (fun r hr => ?_) (fun e' he' => hl e' (List.mem_cons_of_mem e he')) (fun q hq => ho q (hle.owners.owner _ _ hq)) h₂)
    rcases hle.exits i with he | he
    · rw [he] at hr
      cases hr
    · rw [he] at hr
      exact hx r hr

/-- The members of a batch come to their pcs. -/
theorem members_brings {pageModule : Bool} {base : ℤ} (hg : Gap.Landing g) (l : List PendingBlock) (k : ℕ)
    (h : Exact False j.uses g j.toOwnedCode)
    (hslots : ∀ a, k ≤ a → a < k + l.length → 0 ≤ memberSlot pageModule base a ∧ j.regionExits (memberSlot pageModule base a) = none ∧
      ∀ q, j.slotOwner (memberSlot pageModule base a) = some q → q = o)
    (hr : (l.zipIdx k).foldlM (fun j m => j.landMember settings pageModule (memberSlot pageModule base m.2) m.1) j = some j') :
    Lands False g j.toOwnedCode j'.toOwnedCode ∧ Brings (fun q pc => q = o ∧ ∃ m ∈ l, pc = m.pc) j.toOwnedCode j'.toOwnedCode := by
  refine members_rec (Q := fun m => m ∈ l)
    (P := fun _ j' => Brings (fun q pc => q = o ∧ ∃ m ∈ l, pc = m.pc) j.toOwnedCode j'.toOwnedCode)
    (fun done p a j₁ j₂ h h0 hx ho hin hr hP => ?_) l k [] h (fun m hm => hm) hslots hr (.refl _)
  obtain ⟨hl, hb⟩ := landMember_brings h hg hx ho hr
  exact ⟨hl, hP.trans (hb.mono fun q pc hq => ⟨hq.1, p, hin, hq.2⟩)⟩

end JitState
namespace Dispatcher

variable {M : Type} [FullSystemJitMachine M] {fresh : Prop} {d d' : Dispatcher} {j j' : JitState} {o : JitOwnerId} {base : ℤ}
  {n : ℕ} {c : OwnedCode}
  {m m' : M} {a : Action}

theorem retirePrior_brings {B : JitOwnerId → U64 → Prop} {prior : Option JitOwnerId}
    (h : Exact fresh j.uses { Gap.closed with prior := prior, landing := some o } j.toOwnedCode)
    (hr : retirePrior j prior o = some j') :
    Brings B j.toOwnedCode j'.toOwnedCode := by
  unfold retirePrior at hr
  cases prior with
  | none =>
    cases hr
    exact .refl _
  | some q =>
    dsimp only at hr
    split at hr
    · cases hr
      exact .refl _
    · obtain ⟨c, hc, hr⟩ := Option.map_eq_some_iff.1 hr
      obtain ⟨hd, -, -⟩ := h.retireOwner rfl rfl hc
      cases hr
      exact .of_go hd.entries hd.owners

/-- The slots of a landing, for its members. -/
theorem Landing.slots {pageModule : Bool} {len : ℕ} (h : Landing fresh o base n c) (h0 : 0 ≤ base) (hroom : base + n ≤ 2 ^ 31)
    (hlen : 0 < n ∧ (pageModule = false → len = n)) (a : ℕ) (_ : 0 ≤ a) (ha : a < 0 + len) :
    0 ≤ memberSlot pageModule base a ∧ c.regionExits (memberSlot pageModule base a) = none ∧
      ∀ q, c.slotOwner (memberSlot pageModule base a) = some q → q = o := by
  cases pageModule with
  | true =>
    obtain ⟨hown, -, hx⟩ := h.first hlen.1 h0 (by omega)
    exact ⟨h0, hx, fun q hq => Option.some.inj (hq.symm.trans hown)⟩
  | false =>
    have hlt := hlen.2 rfl
    have hslot : wrapI32 (base + a) = base + a := wrapI32_of_lt (by omega) (by omega)
    have h0' : 0 ≤ wrapI32 (base + a) := by
      rw [hslot]
      omega
    exact ⟨h0', h.noExits a (by omega) h0', fun q hq => Option.some.inj (hq.symm.trans (h.owned a (by omega) h0'))⟩

theorem Landing.batch_brings {batch : PendingBatch} (h : Landing False o base n d.jit.toOwnedCode) (hf : Fits False base n batch)
    (hroom : base + n ≤ 2 ^ 31) (hn : 0 < n) (hk : ∀ key, batch.pageModule = some key →
      ∃ source prior, d.jit.pageModules key = some (.pending source o prior) ∧ prior.map LivePageModule.owner ≠ some o)
    (hr : d.landBatch o base batch = some d') :
    Brings (fun q pc => q = o ∧ ∃ m ∈ batch.members, pc = m.pc) d.jit.toOwnedCode d'.jit.toOwnedCode := by
  have hlen : 0 < n ∧ (batch.pageModule.isSome = false → batch.members.length = n) :=
    ⟨hn, fun hpm => by rw [hf.count, hpm]; exact (if_neg Bool.false_ne_true).symm⟩
  unfold landBatch finishPendingPageModule at hr
  cases hpm : batch.pageModule with
  | none =>
    rw [hpm] at hr hlen
    obtain ⟨j1, h1, hr⟩ := Option.bind_eq_some_iff.1 hr
    obtain ⟨j2, h2, hr⟩ := Option.bind_eq_some_iff.1 hr
    cases h2
    unfold completeBatchLanding at h1
    rw [hpm] at h1
    rw [← Option.some.inj hr, publishBase_code]
    exact (members_brings ⟨rfl, rfl, rfl⟩ batch.members 0 h.exact (h.slots hf.nonneg hroom hlen) h1).2
  | some key =>
    obtain ⟨source, prior, hkey, hne⟩ := hk key hpm
    rw [hpm] at hr hlen
    dsimp only at hr
    rw [hkey] at hr
    dsimp only at hr
    rw [if_neg fun hn => hn rfl] at hr
    obtain ⟨j1, h1, hr⟩ := Option.bind_eq_some_iff.1 hr
    obtain ⟨j2, h2, hr⟩ := Option.bind_eq_some_iff.1 hr
    obtain ⟨j0, hj0⟩ : ∃ j0 : JitState, j0 =
        { d.jit with toOwnedCode := Dispatcher.pageTaken d.jit.toOwnedCode key source o (sortDedup (batch.members.map PendingBlock.pc)) } := ⟨_, rfl⟩
    have h1 : j0.completeBatchLanding d.settings base batch = some j1 := by
      rw [hj0]
      exact h1
    have htaken : Exact False j0.uses
      { Gap.closed with prior := prior.map LivePageModule.owner, landing := some o } j0.toOwnedCode := by
      rw [hj0]
      exact h.pageTaken hkey _
    unfold completeBatchLanding at h1
    rw [hpm] at h1
    obtain ⟨hl, hb⟩ := members_brings (o := o) ⟨rfl, rfl, rfl⟩ batch.members 0 htaken
      (by rw [hj0]; exact h.slots hf.nonneg hroom hlen) h1
    rw [← Option.some.inj hr, publishBase_code]
    rw [hj0] at hb
    exact fun pc q hat => (hb.trans (retirePrior_brings hl.exact h2)) pc q hat

/-- Every landing brings code to its own pcs. -/
theorem land_brings {p : PendingJit} (hd : Exact False d.jit.uses .closed d.jit.toOwnedCode)
    (ht : Tracked d.jit.toOwnedCode p.ticket ((slotsFrom base n).filter (0 ≤ ·)) c) (h : Landing False p.ticket base n c)
    (hp : p.Proper)
    (hb : base < 2 ^ 31) (hroom : base + n ≤ 2 ^ 31) (hn : 0 < n) (ho : d.outcome m p base n = .landed)
    (hr : land { d with jit := { d.jit with toOwnedCode := c } } m p base = some (m', d')) :
    Brings (fun q pc => q = p.ticket ∧ ∀ b key, p.kind = .batch b → b.pageModule = some key → pageOf pc = key.2) c d'.jit.toOwnedCode := by
  obtain ⟨-, h0, hcur⟩ := current_of_landed ho
  obtain ⟨hown, hu, hx⟩ := h.first hn h0 hb
  have hg : Gap.Landing { Gap.closed with landing := some p.ticket } := ⟨rfl, rfl, rfl⟩
  unfold land at hr
  cases hk : p.kind with
  | block block =>
    rw [hk] at hr
    obtain ⟨⟨m1, j⟩, hj, hr⟩ := Option.map_eq_some_iff.1 hr
    cases hr
    obtain ⟨j₁, hj₁, hcode⟩ := completeBlockLanding_member hj
    have hbr :=
      (landMember_brings (j := { d.jit with toOwnedCode := c }) h.exact hg hx (fun q hq => Option.some.inj (hq.symm.trans hown)) hj₁).2
    rw [← hcode] at hbr
    exact hbr.mono fun q pc hq => ⟨hq.1, fun b key hn => by cases hn⟩
  | region region =>
    rw [hk] at hr
    obtain ⟨j, hj, hr⟩ := Option.map_eq_some_iff.1 hr
    cases hr
    have hcode := finishSuperblock_code p.ticket region.aspace true region.pages { d.jit with toOwnedCode := c }
    obtain ⟨h₁, hgo, hcache⟩ := Exact.recordRegion
      (j := finishPendingSuperblock { d.jit with toOwnedCode := c } p.ticket region.aspace region.pages true)
      (i := base) (p := region) (by rw [hcode]; exact h.exact) (by rw [hcode]; exact Option.isSome_iff_exists.2 ⟨_, hown⟩)
      (by rw [hcode]; exact hu)
    rw [completeRegionLanding_eq] at hj
    have hone := landEntries_brings hg region.entries h₁ (fun r hr => recordRegion_exits _ base region hr) (fun e he => he)
      (fun q hq => by
        have := hgo.owner _ _ hq
        rw [hcode] at this
        exact Option.some.inj (this.symm.trans hown)) hj
    have hsame : Brings (fun q _ => q = p.ticket) c (JitState.recordRegion (finishPendingSuperblock { d.jit with toOwnedCode := c }
        p.ticket region.aspace region.pages true) base region).toOwnedCode := .of_same (by rw [hcache, hcode]) fun i q hq => by
      have := hgo.owner _ _ hq
      rwa [hcode] at this
    exact (hsame.trans hone).mono fun q pc hq => ⟨hq, fun b key hn => by cases hn⟩
  | batch batch =>
    rw [hk] at hr
    obtain ⟨d1, hd1, hr⟩ := Option.map_eq_some_iff.1 hr
    cases hr
    have hbr := Landing.batch_brings (d := { d with jit := { d.jit with toOwnedCode := c } }) h
      (fits_of_landed hp hb False.elim ho hk) hroom hn
      (fun key hpm => by
        obtain ⟨source, prior, hkey⟩ := hcur batch key hk hpm
        refine ⟨source, prior, (congrFun ht.modules key).trans hkey, fun he => ?_⟩
        have := (hd.active key (o := p.ticket) (by rw [hkey]; exact he)).1
        unfold Alive at this
        rw [ht.dead] at this
        cases this) hd1
    refine hbr.mono fun q pc hq => ⟨hq.1, fun b key hb hpm => ?_⟩
    cases hb
    obtain ⟨mem, hmem, rfl⟩ := hq.2
    exact ((hp batch key hk hpm).2 mem hmem).2.1

theorem OnPages.drops {g : Gap} {c c' : OwnedCode} (h : c.OnPages) (hd : Drops fresh g c c') : c'.OnPages :=
  OwnedCode.OnPages.of_brings h (B := fun _ _ => False)
    (.of_go hd.entries hd.owners) hd.owners.pages.keepsModule fun _ _ => False.elim

/-- Neither the code at the pcs nor the owners change. -/
theorem OnPages.same {c c' : OwnedCode} (h : c.OnPages) (hc : c'.cache = c.cache) (ho : c'.slotOwner = c.slotOwner)
    (hm : c'.pageModuleOwner = c.pageModuleOwner) : c'.OnPages :=
  OwnedCode.OnPages.of_brings h (B := fun _ _ => False) (.of_same hc fun i o hi => by rwa [ho] at hi)
    (fun o key hk => by rwa [hm] at hk)
    fun _ _ => False.elim

/-- A new owner has no code yet. -/
theorem Tracked.ownerAt {slots : List ℤ} {f : ℤ → ℕ} {g : Gap} (ht : Tracked d.jit.toOwnedCode o slots c)
    (h : Exact fresh f g d.jit.toOwnedCode) (pc : U64) :
    c.ownerAt pc = d.jit.ownerAt pc := by
  unfold OwnedCode.ownerAt
  rw [ht.slotAt]
  cases hs : d.jit.slotAt pc with
  | none => rfl
  | some i => exact ht.slotOwner_of_slotAt h hs

theorem Tracked.onPages {slots : List ℤ} {f : ℤ → ℕ} {g : Gap} (ht : Tracked d.jit.toOwnedCode o slots c)
    (h : Exact fresh f g d.jit.toOwnedCode)
    (hon : d.jit.OnPages) : c.OnPages := fun pc q key hat hk => by
  rw [Tracked.ownerAt ht h] at hat
  rw [ht.moduleOwner] at hk
  exact hon pc q key hat hk

/-- **What lands** leaves the code of the page modules on their pages. -/
theorem land_onPages {p : PendingJit} (hd : Exact False d.jit.uses .closed d.jit.toOwnedCode)
    (ht : Tracked d.jit.toOwnedCode p.ticket ((slotsFrom base n).filter (0 ≤ ·)) c) (h : Landing False p.ticket base n c)
    (hp : p.Proper)
    (hb : base < 2 ^ 31) (hroom : base + n ≤ 2 ^ 31) (ho : d.outcome m p base n = .landed) (hon : d.jit.OnPages)
    (hr : land { d with jit := { d.jit with toOwnedCode := c } } m p base = some (m', d')) : d'.jit.OnPages := by
  have hn : 0 < n := by
    rcases Nat.eq_zero_or_pos n with hn | hn
    · exact absurd (by rw [hn]; rfl) ht.slots.1
    · exact hn
  have hbr := land_brings hd ht h hp hb hroom hn ho hr
  have honc := Tracked.onPages ht hd hon
  have hplain (hgo : OwnersGo c d'.jit.toOwnedCode) : d'.jit.OnPages :=
    honc.of_brings hbr hgo.pages.keepsModule fun q pc hq => by rw [hq.1]; exact h.noPage
  cases hk : p.kind with
  | region region => exact hplain (land_region h hb ho hk hr).2
  | block block => exact hplain (land_block h hb ho hk hr).2
  | batch batch =>
    cases hpm : batch.pageModule with
    | none => exact hplain (land_members h hp hb False.elim ho hk hpm hr).2
    | some key =>
      obtain ⟨source, prior, -, hres⟩ := land_page h hd ht hp hb False.elim ho hk hpm hr
      intro pc q key' hat hkey'
      have hold := hres.owners.pages.keepsModule q key' hkey'
      change (c.pageModuleOwner.insert p.ticket key) q = some key' at hold
      rw [HashMap.insert_apply] at hold
      split at hold
      · rename_i hq
        cases hold
        refine (hbr pc q hat).elim (fun hnew => hnew.2 batch _ hk hpm) fun hat => ?_
        rw [Tracked.ownerAt ht hd] at hat
        obtain ⟨i, -, hi⟩ := ownerAt_eq_some.1 hat
        have halive := hd.alive hi
        unfold Alive at halive
        rw [hq, ht.dead] at halive
        cases halive
      · rename_i hq
        exact honc pc q key' ((hbr pc q hat).resolve_left fun hnew => hq hnew.1) hold

theorem finishBatch_onPages {p : PendingJit} {finish : PageModuleFinish} (hf : ∀ o, finish ≠ .landed o) (h : j.OnPages) :
    (finishBatch j p finish).OnPages := by
  refine OnPages.same h ?_ ?_ ?_
  all_goals
    unfold finishBatch finishPendingPageModule recordPageModuleFailure
    repeat' split
    all_goals first
      | rfl
      | exact absurd rfl (hf _)

/-- **Every end of a compile** leaves the code of the page modules on their pages. -/
theorem settle_onPages {p : PendingJit} (h : Exact fresh d.jit.uses .closed d.jit.toOwnedCode) (hp : p.Proper) (hb : InRange base)
    (hroom : base + n ≤ 2 ^ 31) (hon : d.jit.OnPages) (hr : d.settle m p base n = some (m', d')) : d'.jit.OnPages := by
  have hreleased (finish : PageModuleFinish) (hf : ∀ o, finish ≠ .landed o) {j : JitState} (hj : j.OnPages) :
      (finishBatch (releaseRegion j p) p finish).OnPages :=
    finishBatch_onPages hf (by rw [releaseRegion_code]; exact hj)
  have hdropped {j : JitState} (hj : j.OnPages) : (dropSlots j base n).OnPages := by
    unfold dropSlots
    rw [dropSlots_eq]
    exact OnPages.same hj rfl rfl rfl
  unfold settle at hr
  cases ho : d.outcome m p base n <;> rw [ho] at hr
  case wrongSlotCount =>
    cases hr
    exact hdropped (finishBatch_onPages (fun o hn => by cases hn) hon)
  case superseded =>
    cases hr
    exact hdropped (hreleased _ (fun o hn => by cases hn) hon)
  case capacity =>
    obtain ⟨d1, hd1, hr⟩ := Option.map_eq_some_iff.1 hr
    cases hr
    obtain ⟨c, hc, hd1⟩ := Option.map_eq_some_iff.1 hd1
    cases hd1
    have hd := (released_exact h p .cancelled fun o hn => (by cases hn)).evictColdOwner rfl rfl hc
    exact OnPages.drops (hreleased _ (fun o hn => by cases hn) hon) hd
  case failed =>
    cases hr
    exact hreleased _ (fun o hn => by cases hn) hon
  case stale =>
    obtain ⟨c, hc, hr⟩ := Option.bind_eq_some_iff.1 hr
    cases hr
    obtain ⟨hland, ht⟩ := Landing.of_track h rfl hc
    have hd := retireUnreferenced_exact
      (released_exact (j := { d.jit with toOwnedCode := c }) hland.exact p .cancelled fun o hn => (by cases hn))
    exact OnPages.drops (hreleased (j := { d.jit with toOwnedCode := c }) _ (fun o hn => by cases hn) (Tracked.onPages ht h hon)) hd
  case landed =>
    obtain ⟨c, hc, hr⟩ := Option.bind_eq_some_iff.1 hr
    obtain ⟨⟨m1, d1⟩, hl, hr⟩ := Option.bind_eq_some_iff.1 hr
    cases hr
    obtain ⟨hland, ht⟩ := Landing.of_track h.weaken rfl hc
    have hon1 := land_onPages h.weaken ht hland hp hb.2 hroom ho hon hl
    obtain ⟨he, -⟩ := land_exact hland h.weaken ht hp hb.2 False.elim ho hl
    exact OnPages.drops hon1 (retireUnreferenced_exact he)

/-! ## Runs -/

theorem touch_slotAt (c : OwnedCode) (pc pc' : U64) : (c.touch pc).slotAt pc' = c.slotAt pc' := by
  unfold OwnedCode.touch nextJitUseStamp
  dsimp only
  cases hb : (c.cache pc).join with
  | none => rfl
  | some block =>
    have hins : ∀ c' : OwnedCode, c'.cache = c.cache.insert pc
      (some { block with lastUsed := c.useStamp + 1 }) → c'.slotAt pc' = c.slotAt pc' :=
      fun c' hc => by
        rw [slotAt_inserted hc, slotAt_join c pc']
        split
        · rename_i he
          rw [he, hb]
          rfl
        · rfl
    dsimp only
    cases c.slotOwner block.idx with
    | none => exact hins _ rfl
    | some q =>
      refine hins _ ?_
      dsimp only
      rw [updateOwnerRecency_eq]

/-- Every step but a completion leaves the code of the page modules on their pages. -/
theorem Step.onPages (h : Owns fresh d) (hon : d.jit.OnPages) (hs : Step m d a d') (hc : ∀ t b n, a ≠ .complete t b n) :
    d'.jit.OnPages := by
  have same {d' : Dispatcher} (he : d'.jit.toOwnedCode = d.jit.toOwnedCode) : d'.jit.OnPages := by
    rw [he]
    exact hon
  cases hs with
  | complete hc' => exact absurd rfl (hc _ _ _)
  | pageModule ht key source batch hb =>
    rcases issuePageModule_code d key source batch with he | ⟨s, hr⟩
    · exact same he
    · exact OnPages.same hon (by rw [hr.code]) (by rw [hr.code]) (by rw [hr.code])
  | switchSpace gen entriesFull hotFull =>
    refine OnPages.same hon ?_ ?_ ?_
    all_goals
      unfold JitState.switchSpace
      cases entriesFull <;> cases hotFull <;> rfl
  | drain hd ho hj =>
    have h1 := drainPages_drops (s := ⟨d.jit, fun _ => false, fun _ => false⟩) h hd
    obtain ⟨c, hc', hj⟩ := Option.map_eq_some_iff.1 hj
    obtain ⟨h2, -⟩ := Exact.retireOwners rfl rfl _ h1.exact hc'
    cases hj
    exact OnPages.same (OnPages.drops (OnPages.drops hon h1) h2) rfl rfl rfl
  | touch pc =>
    obtain ⟨h1, -, h3, -⟩ := touch_same d.jit.toOwnedCode pc
    intro pc' o key hat hk
    change (d.jit.toOwnedCode.touch pc).ownerAt pc' = some o at hat
    change (d.jit.toOwnedCode.touch pc).pageModuleOwner o = some key at hk
    unfold OwnedCode.ownerAt at hat
    rw [touch_slotAt, h1] at hat
    rw [h3] at hk
    exact hon pc' o key hat hk
  | resolve hr => exact OnPages.drops hon (Exact.resolve h rfl rfl hr)
  | extendInline hr => exact OnPages.drops hon (Exact.extendInline h rfl hr)
  | dropBailing hr => exact OnPages.drops hon (Exact.dropBailing h rfl rfl hr)
  | demote hr =>
    unfold demoteRegion at hr
    split at hr
    · cases hr
      exact hon
    · rename_i r hx
      obtain ⟨c, hc', hr⟩ := Option.map_eq_some_iff.1 hr
      cases hr
      rw [spendAllowances_code]
      exact OnPages.drops hon (Exact.demoteEntries h rfl hx hc')
  | queueExtension hi => exact OnPages.same hon rfl rfl rfl
  | extend hidx hq sampling hb =>
    have hcode := hb.code
    refine OnPages.same hon ?_ ?_ ?_ <;> (rw [hcode]; rfl)
  | buildQueued hk hb => exact same hb.code
  | build ht hb => exact same hb.code
  | block ht hsub => exact same (by rw [submit_code hsub])
  | batch ht hpm hsub => exact same (by rw [submit_code hsub])
  | submitStage ht hsub =>
    unfold submitConfirmedStage at hsub
    split at hsub
    · cases hsub
    · obtain ⟨s, hs, rfl⟩ := Option.map_eq_some_iff.1 hsub
      exact same (by
        change s.2.jit.toOwnedCode = _
        rw [submit_code hs])
  | blacklist ht hb =>
    obtain ⟨c, hc', hb⟩ := Option.map_eq_some_iff.1 hb
    have hi := h.cacheInsert (fun _ hn => (by cases hn)) rfl rfl (fun i r hs => by
      rw [show entrySlot (some (⟨false, -1, 0, _, 0⟩ : JitBlock)) = none from rfl] at hs
      cases hs) hc'
    cases hb
    refine OwnedCode.OnPages.of_brings hon (B := fun _ _ => False)
      (fun pc' o hat => .inr ?_) hi.owners.pages.keepsModule fun _ _ => False.elim
    obtain ⟨i, hi', hio⟩ := ownerAt_eq_some.1 hat
    rw [slotAt_inserted hi.cache] at hi'
    split at hi'
    · cases hi'
    · exact ownerAt_eq_some.2 ⟨i, hi', hi.owners.owner _ _ hio⟩
  | recordEntry ht aspace hot =>
    refine same ?_
    cases hot <;> rfl
  | count pc hc' => exact OnPages.same hon rfl rfl rfl
  | observe pc interp warm tiered ht =>
    have hcode := countEntry_code d.jit warm pc interp
    refine OnPages.same hon ?_ ?_ ?_
    all_goals
      dsimp only
      rw [hcode]
      rfl
  | disable =>
    intro pc o key hat
    cases hat
  | reset =>
    intro pc o key hat
    cases hat
  | enable => exact hon
  | _ => exact hon

/-- **In every run** with fresh slots, the code of the page modules is on their pages. -/
theorem SlotRun.onPages {settings : JitSettings} {count : ℤ → ℕ} (h : SlotRun M (Dispatcher.new settings) d count) :
    d.jit.OnPages := by
  induction h with
  | start =>
    intro pc o key hat
    cases hat
  | @step m d d' a count hrun hP hs ih =>
    obtain ⟨hown, hprop, -⟩ := hrun.exact
    by_cases hc : ∃ t b n, a = .complete t b n
    · obtain ⟨t, b, n, rfl⟩ := hc
      obtain ⟨hb, hfresh⟩ := hP
      cases hs with
      | complete hr =>
        unfold completeJit at hr
        cases hfind : d.findPending t with
        | none =>
          rw [hfind] at hr
          cases hr
          unfold dropSlots
          rw [dropSlots_eq]
          exact OnPages.same ih rfl rfl rfl
        | some found =>
          obtain ⟨pos, p⟩ := found
          rw [hfind] at hr
          have hcode : (d.take pos p).jit.toOwnedCode = d.jit.toOwnedCode := removePendingCoverage_code d.jit p.kind
          exact settle_onPages (by rw [hcode]; exact hown)
            (hprop p ((findPending_some hfind).2.subset List.mem_cons_self)) hb hfresh.1
            (by rw [hcode]; exact ih) hr
    · exact Step.onPages hown ih hs fun t b n he => hc ⟨t, b, n, he⟩

end Dispatcher
end Lish
