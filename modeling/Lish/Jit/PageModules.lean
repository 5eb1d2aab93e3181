import Lish.Jit.ExactRuns
/-!
# PageModules — the life of a page's module

A page is attempted, waits for a build of its module, or is live.  A build that replaces a live module carries a copy of it,
which may be evicted, invalidated or retired while the build is in flight.
-/
namespace Lish

/-- The compile builds the module of a page. -/
def PendingJit.Builds (p : PendingJit) (key : PageKey) : Prop := ∃ batch, p.kind = .batch batch ∧ batch.pageModule = some key

namespace OwnedCode

/-- The module that is live on a page. -/
def liveModule (c : OwnedCode) (key : PageKey) : Option LivePageModule :=
  match c.pageModules key with
  | some (.live code) => some code
  | _ => none

theorem liveModule_eq_some {c : OwnedCode} {key : PageKey} {code : LivePageModule} :
    c.liveModule key = some code ↔ c.pageModules key = some (.live code) := by
  unfold liveModule
  split
  · rename_i live hk
    rw [hk]
    exact ⟨fun h => by rw [Option.some.inj h], fun h => by cases h; rfl⟩
  · rename_i hne
    exact ⟨fun h => (by cases h), fun h => absurd h (hne code)⟩

/-- A module that a build was to replace, if its owner is still there. -/
def surviving (c : OwnedCode) (prior : Option LivePageModule) : Option LivePageModule := prior.filter fun code => c.Alive code.owner

end OwnedCode

namespace Dispatcher

open OwnedCode JitState

variable {M : Type} [FullSystemJitMachine M] {m : M} {fresh : Prop} {d d' : Dispatcher} {a : Action} {c c' : OwnedCode}

/-! ## What the end of a compile does to the pages -/

/-- The page waits for the compile. -/
def Awaits (c : OwnedCode) (p : PendingJit) (key : PageKey) : Prop :=
  p.Builds key ∧ ∃ source prior, c.pageModules key = some (.pending source p.ticket prior)

/-- The state of a page whose build does not land. -/
def givenUp (failed : Bool) (source : PageModuleSource) : Option LivePageModule → Option PageModuleState
  | some code => some (.live code)
  | none => if failed then some (.attempted source) else none

theorem finishBatch_owners (j : JitState) (p : PendingJit) (finish : PageModuleFinish) :
    (finishBatch j p finish).ownerSlots = j.ownerSlots := by
  unfold finishBatch finishPendingPageModule recordPageModuleFailure
  repeat' split
  all_goals rfl

/-- The other pages keep their states. -/
theorem finishBatch_others {j : JitState} {p : PendingJit} {finish : PageModuleFinish} {key : PageKey}
    (hn : ¬Awaits j.toOwnedCode p key) :
    (finishBatch j p finish).pageModules key = j.pageModules key := by
  unfold finishBatch
  split
  · rename_i batch hk
    unfold finishPendingPageModule
    split
    · rfl
    · rename_i key' hkey
      split
      · rename_i source current prior hs
        split
        · rfl
        · rename_i hcur
          have hne : key ≠ key' := by
            intro he
            rw [← he] at hkey hs
            exact hn ⟨⟨batch, hk, hkey⟩, source, prior, by rw [hs, of_not_not hcur]⟩
          unfold recordPageModuleFailure
          split
          · split <;> exact HashMap.insert_of_ne hne
          · split
            · exact HashMap.insert_of_ne hne
            · exact HashMap.remove_of_ne hne
          · exact HashMap.insert_of_ne hne
      · rfl
  · rfl

theorem finishBatch_failed {j : JitState} {p : PendingJit} {key : PageKey} {source : PageModuleSource}
    {prior : Option LivePageModule}
    (hb : p.Builds key) (hs : j.pageModules key = some (.pending source p.ticket prior)) :
    (finishBatch j p .failed).pageModules key = givenUp true source prior := by
  obtain ⟨batch, hk, hkey⟩ := hb
  unfold finishBatch finishPendingPageModule
  rw [hk]
  dsimp only
  rw [hkey]
  dsimp only
  rw [hs]
  dsimp only
  rw [if_neg fun hn => hn rfl]
  cases prior <;> exact HashMap.insert_self _ _ _

theorem finishBatch_cancelled {j : JitState} {p : PendingJit} {key : PageKey} {source : PageModuleSource}
    {prior : Option LivePageModule}
    (hb : p.Builds key) (hs : j.pageModules key = some (.pending source p.ticket prior)) :
    (finishBatch j p .cancelled).pageModules key = givenUp false source prior := by
  obtain ⟨batch, hk, hkey⟩ := hb
  unfold finishBatch finishPendingPageModule
  rw [hk]
  dsimp only
  rw [hkey]
  dsimp only
  rw [hs]
  dsimp only
  rw [if_neg fun hn => hn rfl]
  cases prior with
  | none => exact HashMap.remove_self _ _
  | some code => exact HashMap.insert_self _ _ _

/-- What the states of the pages come from: those before the compile ended, one of them given up or taken. -/
structure Ended (d : Dispatcher) (p : PendingJit) (landed : Bool) (c : OwnedCode) : Prop where
  others : ∀ key, ¬Awaits d.jit.toOwnedCode p key → c.pageModules key = d.jit.pageModules key
  awaited : ∀ key source prior, p.Builds key → d.jit.pageModules key = some (.pending source p.ticket prior) →
    if landed then ∃ entries, c.pageModules key = some (.live ⟨source, p.ticket, entries⟩)
    else ∃ failed, c.pageModules key = givenUp failed source prior

theorem Ended.of_finish {p : PendingJit} (failed : Bool) (hm : c.pageModules =
    (finishBatch d.jit p (if failed then .failed else .cancelled)).pageModules) : Ended d p false c where
  others key hn := by
    rw [hm]
    exact finishBatch_others hn
  awaited key source prior hb hs := by
    refine ⟨failed, ?_⟩
    rw [hm]
    cases failed with
    | true => exact finishBatch_failed hb hs
    | false => exact finishBatch_cancelled hb hs

theorem released_modules (j : JitState) (p : PendingJit) (finish : PageModuleFinish) :
    (finishBatch (releaseRegion j p) p finish).pageModules = (finishBatch j p finish).pageModules := by
  have hcode := releaseRegion_code j p
  cases hk : p.kind with
  | region region =>
    unfold finishBatch
    rw [hk]
    exact congrArg OwnedCode.pageModules hcode
  | block block =>
    unfold finishBatch
    rw [hk]
    exact congrArg OwnedCode.pageModules hcode
  | batch batch =>
    unfold releaseRegion
    rw [hk]

theorem dropSlots_same (j : JitState) (base : ℤ) (n : ℕ) :
    (dropSlots j base n).pageModules = j.pageModules ∧ (dropSlots j base n).pageModuleOwner = j.pageModuleOwner ∧
      (dropSlots j base n).ownerSlots = j.ownerSlots ∧ (dropSlots j base n).slotOwner = j.slotOwner ∧
      (dropSlots j base n).cache = j.cache := by
  unfold dropSlots
  rw [dropSlots_eq]
  exact ⟨rfl, rfl, rfl, rfl, rfl⟩

/-- **Every end of a compile** gives up or takes the page that waits for it; then owners go. -/
theorem settle_ended {m' : M} {p : PendingJit} {base : ℤ} {n : ℕ} (h : Exact fresh d.jit.uses .closed d.jit.toOwnedCode)
    (hp : p.Proper)
    (hb : InRange base) (hf : fresh → FreshSlots d.jit.toOwnedCode base n) (hr : d.settle m p base n = some (m', d')) :
    ∃ c, Ended d p (decide (d.outcome m p base n = .landed)) c ∧ OwnersGo c d'.jit.toOwnedCode := by
  have hexact := (settle_exact h hp hb hf hr).exact
  unfold settle at hr
  cases ho : d.outcome m p base n <;> rw [ho] at hr
  case wrongSlotCount =>
    cases hr
    exact ⟨_, .of_finish true (dropSlots_same _ base n).1, hexact.ownersGo_refl⟩
  case superseded =>
    cases hr
    exact ⟨_, .of_finish false ((dropSlots_same _ base n).1.trans (released_modules d.jit p .cancelled)), hexact.ownersGo_refl⟩
  case capacity =>
    obtain ⟨d1, hd1, hr⟩ := Option.map_eq_some_iff.1 hr
    cases hr
    obtain ⟨c, hc, hd1⟩ := Option.map_eq_some_iff.1 hd1
    cases hd1
    have hd := (released_exact h p .cancelled fun o hn => (by cases hn)).evictColdOwner rfl rfl hc
    exact ⟨_, .of_finish false (released_modules d.jit p .cancelled), hd.owners⟩
  case failed =>
    cases hr
    exact ⟨_, .of_finish true (released_modules d.jit p .failed), hexact.ownersGo_refl⟩
  case stale =>
    obtain ⟨c, hc, hr⟩ := Option.bind_eq_some_iff.1 hr
    cases hr
    obtain ⟨hland, ht⟩ := Landing.of_track h rfl hc
    have hd := retireUnreferenced_exact
      (released_exact (j := { d.jit with toOwnedCode := c }) hland.exact p .cancelled fun o hn => (by cases hn))
    refine ⟨_, ⟨fun key hn => ?_, fun key source prior hbuild hs => ⟨false, ?_⟩⟩, hd.owners⟩
    · rw [released_modules]
      have hn' : ¬Awaits { d.jit with toOwnedCode := c }.toOwnedCode p key := by
        unfold Awaits at hn ⊢
        rwa [ht.modules]
      exact (finishBatch_others hn').trans (congrFun ht.modules key)
    · rw [released_modules]
      exact finishBatch_cancelled hbuild ((congrFun ht.modules key).trans hs)
  case landed =>
    obtain ⟨c, hc, hr⟩ := Option.bind_eq_some_iff.1 hr
    obtain ⟨⟨m1, d1⟩, hl, hr⟩ := Option.bind_eq_some_iff.1 hr
    cases hr
    obtain ⟨hland, ht⟩ := Landing.of_track h rfl hc
    -- a landing that builds no page's module
    have hother (hno : ∀ key, ¬p.Builds key)
      (hgo : Exact fresh d1.jit.uses { Gap.closed with landing := some p.ticket } d1.jit.toOwnedCode ∧
        OwnersGo c d1.jit.toOwnedCode) : ∃ c, Ended d p true c ∧ OwnersGo c (retireUnreferenced d1.jit p.ticket).toOwnedCode :=
      ⟨c, ⟨fun key _ => congrFun ht.modules key, fun key _ _ hbuild => absurd hbuild (hno key)⟩,
        hgo.2.trans (retireUnreferenced_exact hgo.1).owners⟩
    cases hk : p.kind with
    | region region =>
      exact hother (fun key hbuild => by obtain ⟨b, hb, -⟩ := hbuild; rw [hk] at hb; cases hb) (land_region hland hb.2 ho hk hl)
    | block block =>
      exact hother (fun key hbuild => by obtain ⟨b, hb, -⟩ := hbuild; rw [hk] at hb; cases hb) (land_block hland hb.2 ho hk hl)
    | batch batch =>
      cases hpm : batch.pageModule with
      | none =>
        refine hother (fun key hbuild => ?_) (land_members hland hp hb.2 (fun hp => (hf hp).1) ho hk hpm hl)
        obtain ⟨b, hb, hbk⟩ := hbuild
        cases hk.symm.trans hb
        rw [hpm] at hbk
        cases hbk
      | some key =>
        obtain ⟨source, prior, hkey, hpage⟩ := land_page hland h ht hp hb.2 (fun hp => (hf hp).1) ho hk hpm hl
        refine ⟨_, ⟨fun key' hn => ?_, fun key' source' prior' hbuild hs => ?_⟩,
          hpage.owners.trans (retireUnreferenced_exact hpage.exact).owners⟩
        · have hne : key' ≠ key := fun he => hn ⟨⟨batch, hk, by rw [he]; exact hpm⟩, source, prior, by rw [he]; exact hkey⟩
          exact (HashMap.insert_of_ne hne).trans (congrFun ht.modules key')
        · obtain ⟨b, hb, hbk⟩ := hbuild
          cases hk.symm.trans hb
          cases hpm.symm.trans hbk
          cases hkey.symm.trans hs
          exact ⟨_, HashMap.insert_self _ _ _⟩

/-- **A page's module lands**: it is there, and what it replaces goes, each of its slots once. -/
theorem settle_page {m' : M} {p : PendingJit} {base : ℤ} {n : ℕ} {key : PageKey} {source : PageModuleSource}
    {prior : Option LivePageModule}
    (h : Exact fresh d.jit.uses .closed d.jit.toOwnedCode) (hp : p.Proper) (hb : InRange base)
    (hf : fresh → FreshSlots d.jit.toOwnedCode base n) (hr : d.settle m p base n = some (m', d'))
    (ho : d.outcome m p base n = .landed) (hbuild : p.Builds key)
    (hs : d.jit.pageModules key = some (.pending source p.ticket prior)) :
    d'.jit.Alive p.ticket ∧ ∀ code, prior = some code → ¬d'.jit.Alive code.owner ∧
      ∀ i, d.jit.slotOwner i = some code.owner → d'.jit.liveSlots i = false ∧ d'.jit.tally i = d.jit.tally i := by
  have hexact := (settle_exact h hp hb hf hr).exact
  unfold settle at hr
  rw [ho] at hr
  obtain ⟨c, hc, hr⟩ := Option.bind_eq_some_iff.1 hr
  obtain ⟨⟨m1, d1⟩, hl, hr⟩ := Option.bind_eq_some_iff.1 hr
  cases hr
  obtain ⟨hland, ht⟩ := Landing.of_track h rfl hc
  obtain ⟨batch, hk, hpm⟩ := hbuild
  obtain ⟨source', prior', hkey, hpage⟩ := land_page hland h ht hp hb.2 (fun hp => (hf hp).1) ho hk hpm hl
  cases hkey.symm.trans hs
  have hd := retireUnreferenced_exact hpage.exact
  have howners := hpage.owners.trans hd.owners
  refine ⟨?_, fun code hcode => ?_⟩
  · -- an entry runs in the module's slot
    obtain ⟨pc, hpc⟩ := hpage.inUse
    have hcache : (retireUnreferenced d1.jit p.ticket).cache = d1.jit.cache := (hpage.exact.retireSlots false _).2.1
    have hpc' : (retireUnreferenced d1.jit p.ticket).slotAt pc = some base := by
      unfold OwnedCode.slotAt at hpc ⊢
      rw [hcache]
      exact hpc
    obtain ⟨o, hslot⟩ := Option.isSome_iff_exists.1 (hexact.owned pc base hpc')
    obtain ⟨hn, h0, -⟩ := current_of_landed ho
    have hpos : 0 < n := by
      rw [← hn]
      unfold PendingJit.slotCount
      rw [hk]
      dsimp only
      rw [hpm]
      exact Nat.one_pos
    have hbase : wrapI32 (base + (0 : ℕ)) = base := by
      rw [Int.natCast_zero, Int.add_zero, wrapI32_of_lt h0 hb.2]
    have hown := hland.owned 0 hpos (by rw [hbase]; exact h0)
    rw [hbase] at hown
    have hfrom : c.slotOwner base = some o := howners.owner base o hslot
    rw [hown] at hfrom
    have halive := hexact.alive hslot
    rwa [← Option.some.inj hfrom] at halive
  · have hdead : ¬(retireUnreferenced d1.jit p.ticket).Alive code.owner := fun ha => hpage.gone code hcode (hd.owners.alive _ ha)
    refine ⟨hdead, fun i hi => ?_⟩
    have hnot : i ∉ (slotsFrom base n).filter (0 ≤ ·) := fun hmem => by
      rw [ht.unowned i hmem] at hi
      cases hi
    have hci : c.slotOwner i = some code.owner := by
      rw [ht.slotOwner, if_neg hnot]
      exact hi
    have hnone : (retireUnreferenced d1.jit p.ticket).slotOwner i = none := by
      by_contra hne
      obtain ⟨o, hslot⟩ := Option.ne_none_iff_exists'.1 hne
      have hfrom : c.slotOwner i = some o := howners.owner i o hslot
      rw [hci] at hfrom
      exact hdead (by rw [Option.some.inj hfrom]; exact hexact.alive hslot)
    refine ⟨howners.gone i (by change (c.slotOwner i).isSome; rw [hci]; rfl) hnone, (howners.tally i).trans ?_⟩
    change c.tally i = _
    unfold OwnedCode.tally
    rw [ht.retired, ht.live, if_neg hnot]

/-! ## Completions -/

/-- Nothing of the pages, the owners and the entries changes. -/
structure SameCode (c c' : OwnedCode) : Prop where
  modules : c'.pageModules = c.pageModules
  moduleOwner : c'.pageModuleOwner = c.pageModuleOwner
  ownerSlots : c'.ownerSlots = c.ownerSlots
  slotOwner : c'.slotOwner = c.slotOwner
  cache : c'.cache = c.cache

theorem SameCode.of_drop (j : JitState) (base : ℤ) (n : ℕ) : SameCode j.toOwnedCode (dropSlots j base n).toOwnedCode := by
  obtain ⟨h1, h2, h3, h4, h5⟩ := dropSlots_same j base n
  exact ⟨h1, h2, h3, h4, h5⟩

/-- A build that its page does not wait for changes nothing. -/
theorem settle_foreign {m' : M} {p : PendingJit} {base : ℤ} {n : ℕ} {key : PageKey} (hbuild : p.Builds key)
    (hs : ∀ source prior, d.jit.pageModules key ≠ some (.pending source p.ticket prior))
    (hr : d.settle m p base n = some (m', d')) :
    SameCode d.jit.toOwnedCode d'.jit.toOwnedCode := by
  obtain ⟨batch, hk, hkey⟩ := hbuild
  have hcurrent : d.isCurrent p = false := by
    unfold isCurrent pageModulePendingIsCurrent
    rw [hk]
    dsimp only
    rw [hkey]
    dsimp only
    rw [Bool.and_eq_false_iff]
    refine .inr ?_
    split
    · rename_i source current prior hstate
      exact decide_eq_false fun he => hs source prior (by rw [hstate, he])
    · rfl
  have hfinish (finish : PageModuleFinish) : finishBatch d.jit p finish = d.jit := by
    unfold finishBatch finishPendingPageModule
    rw [hk]
    dsimp only
    rw [hkey]
    dsimp only
    split
    · rename_i source current prior hstate
      rw [if_pos fun he => hs source prior (by rw [hstate, he])]
    · rfl
  have hrelease : releaseRegion d.jit p = d.jit := by
    unfold releaseRegion
    rw [hk]
  unfold settle outcome at hr
  rw [hcurrent] at hr
  by_cases hn : p.slotCount = n
  · rw [if_neg (not_not.2 hn)] at hr
    cases hr
    rw [hrelease, hfinish]
    exact .of_drop d.jit base n
  · rw [if_pos hn] at hr
    cases hr
    rw [hfinish]
    exact .of_drop d.jit base n

theorem take_code (d : Dispatcher) (pos : ℕ) (p : PendingJit) : (d.take pos p).jit.toOwnedCode = d.jit.toOwnedCode :=
  removePendingCoverage_code d.jit p.kind

/-- **Every completion**: a page that does not wait for it keeps its state, but for owners that go. -/
theorem completeJit_follows {m' : M} {ticket : U64} {base : ℤ} {n : ℕ} {key : PageKey}
    (h : Exact fresh d.jit.uses .closed d.jit.toOwnedCode)
    (hp : d.AllProper) (hb : InRange base) (hf : fresh → FreshSlots d.jit.toOwnedCode base n)
    (hr : d.completeJit m ticket base n = some (m', d'))
    (hn : ∀ pos p, d.findPending ticket = some (pos, p) → ¬Awaits d.jit.toOwnedCode p key) :
    d'.jit.pageModules key = (d.jit.pageModules key).bind d'.jit.survives := by
  have hexact := (completeJit_exact h hp hb hf hr).exact
  unfold completeJit at hr
  cases hfind : d.findPending ticket with
  | none =>
    rw [hfind] at hr
    cases hr
    have hsame := SameCode.of_drop d.jit base n
    refine (congrFun hsame.modules key).trans (h.survive (fun o ha => ?_) key).symm
    unfold Alive at ha ⊢
    rwa [hsame.ownerSlots]
  | some found =>
    obtain ⟨pos, p⟩ := found
    rw [hfind] at hr
    have hcode := take_code d pos p
    obtain ⟨c, hended, howners⟩ := settle_ended (by rw [hcode]; exact h)
      (hp p ((findPending_some hfind).2.subset List.mem_cons_self)) hb
      (by rw [hcode]; exact hf) hr
    have hothers := hended.others key (by rw [hcode]; exact hn pos p hfind)
    rw [hcode] at hothers
    rw [howners.modules, hothers]

theorem liveModule_givenUp {key : PageKey} {failed : Bool} {source : PageModuleSource} {prior : Option LivePageModule}
    (h : c'.pageModules key = (givenUp failed source prior).bind c'.survives) : c'.liveModule key = c'.surviving prior := by
  unfold liveModule surviving
  rw [h]
  cases prior with
  | none => cases failed <;> rfl
  | some code =>
    unfold givenUp
    rw [Option.bind_some, survives_live, Option.filter_some]
    by_cases ha : c'.Alive code.owner
    · rw [if_pos ha, if_pos (decide_eq_true ha)]
    · rw [if_neg ha, if_neg fun hn => ha (of_decide_eq_true hn)]

theorem not_pending_givenUp {key : PageKey} {failed : Bool} {source : PageModuleSource} {prior : Option LivePageModule}
    (h : c'.pageModules key = (givenUp failed source prior).bind c'.survives) (s : PageModuleSource) (t : U64)
    (q : Option LivePageModule) :
    c'.pageModules key ≠ some (.pending s t q) := by
  rw [h]
  cases prior with
  | none => cases failed <;> exact fun he => by cases he
  | some code =>
    unfold givenUp
    rw [Option.bind_some, survives_live]
    split <;> exact fun he => by cases he

/-- The end of the compile that a page waits for. -/
theorem completeJit_over {m' : M} {ticket : U64} {base : ℤ} {n pos : ℕ} {p : PendingJit} {key : PageKey} {source : PageModuleSource}
    {prior : Option LivePageModule} (h : Exact fresh d.jit.uses .closed d.jit.toOwnedCode) (hp : d.AllProper) (hb : InRange base)
    (hf : fresh → FreshSlots d.jit.toOwnedCode base n) (hr : d.completeJit m ticket base n = some (m', d'))
    (hfind : d.findPending ticket = some (pos, p)) (hbuild : p.Builds key)
    (hs : d.jit.pageModules key = some (.pending source ticket prior)) :
    if (d.take pos p).outcome m p base n = .landed then
      ∃ entries, d'.jit.pageModules key = (some (.live ⟨source, ticket, entries⟩)).bind d'.jit.survives
    else ∃ failed, d'.jit.pageModules key = (givenUp failed source prior).bind d'.jit.survives := by
  have hcode := take_code d pos p
  have hticket := (findPending_some hfind).1
  unfold completeJit at hr
  rw [hfind] at hr
  obtain ⟨c, hended, howners⟩ := settle_ended (by rw [hcode]; exact h)
    (hp p ((findPending_some hfind).2.subset List.mem_cons_self)) hb
    (by rw [hcode]; exact hf) hr
  have hover := hended.awaited key source prior hbuild (by rw [hcode, hticket]; exact hs)
  split
  · rename_i ho
    rw [decide_eq_true ho, if_pos rfl, hticket] at hover
    obtain ⟨entries, he⟩ := hover
    exact ⟨entries, by rw [howners.modules, he]⟩
  · rename_i ho
    rw [decide_eq_false ho, if_neg Bool.false_ne_true] at hover
    obtain ⟨failed, he⟩ := hover
    exact ⟨failed, by rw [howners.modules, he]⟩

/-! ## A build in flight -/

/-- The host answers with a signed word. -/
def HostAnswers (a : Action) : Prop :=
  match a with
  | .complete _ base _ => InRange base
  | _ => True

/-- The states of the runs since a page began to wait for a build, and whether the module it replaces has been alive all along. -/
inductive InFlight (M : Type) [FullSystemJitMachine M] (key : PageKey) (ticket : U64) (prior : Option LivePageModule)
    (d₀ : Dispatcher) :
    Dispatcher → Bool → Prop
  | start : InFlight M key ticket prior d₀ d₀ true
  | step {m : M} {d d' : Dispatcher} {a : Action} {alive : Bool} (h : InFlight M key ticket prior d₀ d alive) (ha : HostAnswers a)
      (hs : Step m d a d') (hw : ∃ source left, d'.jit.pageModules key = some (.pending source ticket left)) :
      InFlight M key ticket prior d₀ d' (alive && prior.all fun code => decide (d'.jit.Alive code.owner))

/-- A page that waits is left as it is by another issue. -/
theorem issuePageModule_waiting {key : PageKey} {source : PageModuleSource} {ticket : U64} {prior : Option LivePageModule}
    (key' : PageKey) (source' : PageModuleSource) (batch : Option PendingBatch)
    (hs : d.jit.pageModules key = some (.pending source ticket prior)) :
    (d.issuePageModule key' source' batch).jit.pageModules key = d.jit.pageModules key ∧
      (d.issuePageModule key' source' batch).jit.ownerSlots = d.jit.ownerSlots := by
  rcases issuePageModule_code d key' source' batch with hcode | ⟨s, hreplaces⟩
  · rw [hcode]
    exact ⟨rfl, rfl⟩
  · by_cases hk : key = key'
    · -- the decision is to wait
      have hwait : d.issuePageModule key' source' batch = d := by
        unfold issuePageModule pageModuleDecision
        rw [← hk, hs]
      rw [hwait]
      exact ⟨rfl, rfl⟩
    · rw [hreplaces.code]
      exact ⟨HashMap.insert_of_ne hk, rfl⟩

/-- **A step** leaves a page that waits as it was, but for a module whose owner goes. -/
theorem Step.waiting {key : PageKey} {source source' : PageModuleSource} {ticket ticket' : U64}
    {prior prior' : Option LivePageModule}
    (h : Owns False d) (hp : d.AllProper) (ha : HostAnswers a) (hs : Step m d a d')
    (hw : d.jit.pageModules key = some (.pending source ticket prior))
    (hw' : d'.jit.pageModules key = some (.pending source' ticket' prior')) :
    source' = source ∧ ticket' = ticket ∧ prior' = d'.jit.surviving prior := by
  have hfollows : d'.jit.pageModules key = (d.jit.pageModules key).bind d'.jit.survives := by
    by_cases hc : ∃ t b n, a = .complete t b n
    · obtain ⟨t, b, n, rfl⟩ := hc
      cases hs with
      | complete hr =>
        refine completeJit_follows h hp ha (fun hn => hn.elim) hr fun pos p hfind hawaits => ?_
        obtain ⟨hbuild, s, q, hstate⟩ := hawaits
        rw [(findPending_some hfind).1] at hstate
        have hover := completeJit_over h hp ha (fun hn => hn.elim) hr hfind hbuild hstate
        split at hover
        · obtain ⟨entries, he⟩ := hover
          rw [he, Option.bind_some, survives_live] at hw'
          split at hw' <;> cases hw'
        · obtain ⟨failed, he⟩ := hover
          exact not_pending_givenUp he source' ticket' prior' hw'
    · by_cases hpm : a = .pageModule
      · subst hpm
        cases hs with
        | pageModule _ key' source' batch _ =>
          obtain ⟨hsame, howners⟩ := issuePageModule_waiting key' source' batch hw
          rw [hsame, h.survive fun o ho => ?_]
          unfold Alive at ho ⊢
          rwa [howners]
      · have hkeeps := (Step.keeps h hs (fun t b n he => hc ⟨t, b, n, he⟩) hpm).pages.modules key
        refine hkeeps.resolve_left fun hn => ?_
        rw [hn] at hw'
        cases hw'
  rw [hw', hw, Option.bind_some, survives_pending] at hfollows
  cases hfollows
  exact ⟨rfl, rfl, rfl⟩

/-! ## The life of a page's module -/

/-- What holds of the pages in a state, and of what a completion makes of them. -/
structure PageLifecycle (M : Type) [FullSystemJitMachine M] (d : Dispatcher) : Prop where
  /-- A live module's owner has slots, and the page is its page. -/
  live : ∀ key code, d.jit.pageModules key = some (.live code) →
    (∃ slots, d.jit.ownerSlots code.owner = some slots ∧ slots ≠ []) ∧ d.jit.pageModuleOwner code.owner = some key
  /-- A build carries the module that was live when it was issued. -/
  issued : ∀ key source batch source' ticket prior, (∀ s t q, d.jit.pageModules key ≠ some (.pending s t q)) →
    (d.issuePageModule key source batch).jit.pageModules key = some (.pending source' ticket prior) → prior = d.jit.liveModule key
  /-- A ticket that no compile has, or that its page does not wait for, changes nothing. -/
  foreign : ∀ (m : M) (ticket : U64) (base : ℤ) (n : ℕ) (m' : M) (d' : Dispatcher),
    d.completeJit m ticket base n = some (m', d') →
    (d.findPending ticket = none ∨ ∃ pos p key, d.findPending ticket = some (pos, p) ∧ p.Builds key ∧
      ∀ source prior, d.jit.pageModules key ≠ some (.pending source ticket prior)) →
    SameCode d.jit.toOwnedCode d'.jit.toOwnedCode
  /-- A page that does not wait for a compile keeps its state when the compile ends, but for an owner that goes. -/
  others : ∀ (m : M) (ticket : U64) (base : ℤ) (n : ℕ) (m' : M) (d' : Dispatcher) key, InRange base →
    d.completeJit m ticket base n = some (m', d') →
    (∀ pos p, d.findPending ticket = some (pos, p) → ¬Awaits d.jit.toOwnedCode p key) →
    d'.jit.pageModules key = (d.jit.pageModules key).bind d'.jit.survives
  /-- A build that does not land gives the page back to the module it was to replace, if that is still there. -/
  givenUp : ∀ (m : M) (ticket : U64) (base : ℤ) (n : ℕ) (m' : M) (d' : Dispatcher) pos p key source prior, InRange base →
    d.completeJit m ticket base n = some (m', d') → d.findPending ticket = some (pos, p) → p.Builds key →
    d.jit.pageModules key = some (.pending source ticket prior) → (d.take pos p).outcome m p base n ≠ .landed →
    d'.jit.liveModule key = d'.jit.surviving prior ∧ ∀ s t q, d'.jit.pageModules key ≠ some (.pending s t q)
  /-- A build that lands is the page's only owner, and what it replaces is retired, each slot in use once. -/
  landed : ∀ (m : M) (ticket : U64) (base : ℤ) (n : ℕ) (m' : M) (d' : Dispatcher) pos p key source prior, InRange base →
    d.completeJit m ticket base n = some (m', d') → d.findPending ticket = some (pos, p) → p.Builds key →
    d.jit.pageModules key = some (.pending source ticket prior) → (d.take pos p).outcome m p base n = .landed →
    (∃ entries, d'.jit.pageModules key = some (.live ⟨source, ticket, entries⟩)) ∧
    (∀ o, d'.jit.pageModuleOwner o = some key ↔ o = ticket) ∧
    ∀ code, prior = some code → ¬d'.jit.Alive code.owner ∧ ∀ i, d.jit.slotOwner i = some code.owner →
      d'.jit.liveSlots i = false ∧ (d'.jit.retired i).length = (d.jit.retired i).length + if d.jit.liveSlots i then 1 else 0

/-- A decision to build replaces what is live. -/
theorem decision_build {j : JitState} {key : PageKey} {source : PageModuleSource} {prior : Option LivePageModule}
    (h : j.pageModuleDecision key source = .build prior) : prior = j.liveModule key := by
  unfold pageModuleDecision at h
  unfold liveModule
  split at h
  · rename_i hk
    rw [hk]
    exact (PageModuleDecision.build.inj h).symm
  · rename_i attempted hk
    rw [hk]
    split at h
    · cases h
    · exact (PageModuleDecision.build.inj h).symm
  · cases h
  · rename_i code hk
    rw [hk]
    split at h
    · exact (PageModuleDecision.build.inj h).symm
    · cases h

/-- A page that begins to wait keeps what was live on it. -/
theorem issuePageModule_prior {key : PageKey} {source source' : PageModuleSource} {batch : Option PendingBatch} {ticket : U64}
    {prior : Option LivePageModule} (hidle : ∀ s t q, d.jit.pageModules key ≠ some (.pending s t q))
    (hk : (d.issuePageModule key source batch).jit.pageModules key = some (.pending source' ticket prior)) :
      prior = d.jit.liveModule key := by
  unfold issuePageModule at hk
  split at hk
  · exact absurd hk (hidle _ _ _)
  · exact absurd hk (hidle _ _ _)
  · rename_i old hdec
    split at hk
    · unfold recordPageModuleFailure at hk
      split at hk
      · cases (HashMap.insert_self _ _ _).symm.trans hk
      · cases (HashMap.insert_self _ _ _).symm.trans hk
    · split at hk
      · exact absurd hk (hidle _ _ _)
      · cases (HashMap.insert_self _ _ _).symm.trans hk
        exact decision_build hdec

theorem PageLifecycle.of_exact (h : Owns False d) (hp : d.AllProper) : PageLifecycle M d where
  live key code hk := by
    obtain ⟨halive, hmo⟩ := h.active key (o := code.owner) (by rw [hk]; rfl)
    obtain ⟨slots, hslots⟩ := Option.isSome_iff_exists.1 halive
    exact ⟨⟨slots, hslots, (h.slots.proper _ _ hslots).1⟩, hmo⟩
  issued _ _ _ _ _ _ hidle hk := issuePageModule_prior hidle hk
  foreign m ticket base n m' d' hr hcases := by
    unfold completeJit at hr
    rcases hcases with hnone | ⟨pos, p, key, hfind, hbuild, hs⟩
    · rw [hnone] at hr
      cases hr
      exact .of_drop d.jit base n
    · rw [hfind] at hr
      have hcode := take_code d pos p
      rw [← (findPending_some hfind).1, ← hcode] at hs
      have hsame := settle_foreign hbuild hs hr
      rwa [hcode] at hsame
  others m ticket base n m' d' key hb hr hn := completeJit_follows h hp hb (fun hn => hn.elim) hr hn
  givenUp m ticket base n m' d' pos p key source prior hb hr hfind hbuild hs ho := by
    have hover := completeJit_over h hp hb (fun hn => hn.elim) hr hfind hbuild hs
    rw [if_neg ho] at hover
    obtain ⟨failed, he⟩ := hover
    exact ⟨liveModule_givenUp he, not_pending_givenUp he⟩
  landed m ticket base n m' d' pos p key source prior hb hr hfind hbuild hs ho := by
    have hexact := (completeJit_exact h hp hb (fun hn => hn.elim) hr).exact
    have hover := completeJit_over h hp hb (fun hn => hn.elim) hr hfind hbuild hs
    rw [if_pos ho] at hover
    obtain ⟨entries, he⟩ := hover
    have hcode := take_code d pos p
    have hticket := (findPending_some hfind).1
    unfold completeJit at hr
    rw [hfind] at hr
    obtain ⟨halive, hgone⟩ := settle_page (by rw [hcode]; exact h) (hp p ((findPending_some hfind).2.subset List.mem_cons_self)) hb
      (fun hn : False => hn.elim) hr ho hbuild (by rw [hcode, hticket]; exact hs)
    rw [hticket] at halive
    rw [Option.bind_some, survives_live, if_pos halive] at he
    refine ⟨⟨entries, he⟩, fun o => ?_, fun code hcode' => ?_⟩
    · have hm := hexact.modules o key
      rw [he] at hm
      exact ⟨fun ho => (Option.some.inj (hm.1 ⟨ho, fun hn => by cases hn⟩)).symm, fun ho => (hm.2 (by rw [ho]; rfl)).1⟩
    · obtain ⟨hdead, hslots⟩ := hgone code hcode'
      refine ⟨hdead, fun i hi => ?_⟩
      obtain ⟨hlive, htally⟩ := hslots i (by rw [hcode]; exact hi)
      rw [hcode] at htally
      unfold OwnedCode.tally at htally
      rw [hlive, if_neg Bool.false_ne_true, Nat.add_zero] at htally
      exact ⟨hlive, htally⟩

/-- The states of the runs in which the host answers with signed words. -/
def Answered (M : Type) [FullSystemJitMachine M] (settings : JitSettings) (d : Dispatcher) : Prop :=
  Run (fun (_ : M) _ a => HostAnswers a) (Dispatcher.new settings) d

theorem Step.owns (h : Owns False d) (hp : d.AllProper) (ha : HostAnswers a) (hs : Step m d a d') : Owns False d' := by
  by_cases hc : ∃ t b n, a = .complete t b n
  · obtain ⟨t, b, n, rfl⟩ := hc
    cases hs with
    | complete hr => exact (completeJit_exact h hp ha (fun hn : False => hn.elim) hr).exact
  · by_cases hpm : a = .pageModule
    · subst hpm
      cases hs with
      | pageModule _ key source batch _ =>
        rcases issuePageModule_code d key source batch with hcode | ⟨s, hr⟩
        · exact (Keeps.of_same h hcode).owns
        · have he := hr.exact h
          unfold Owns
          have huses : (d.issuePageModule key source batch).jit.uses = d.jit.uses := by
            rw [hr.code]
            rfl
          rw [huses]
          exact he
    · exact (Step.keeps h hs (fun t b n he => hc ⟨t, b, n, he⟩) hpm).owns

theorem Answered.owns {settings : JitSettings} (h : Answered M settings d) : Owns False d ∧ d.AllProper := by
  unfold Answered at h
  induction h with
  | start => exact ⟨owns_new False settings, fun _ hp => absurd hp List.not_mem_nil⟩
  | step _ ha hs ih =>
    obtain ⟨hown, hprop⟩ := ih
    exact ⟨hs.owns hown hprop ha, hprop.step hs⟩

/-- A page that waits since some state has kept the module that it replaces, if its owner has been there ever since. -/
theorem InFlight.carries {key : PageKey} {source : PageModuleSource} {ticket : U64} {prior : Option LivePageModule}
    {d₀ : Dispatcher} {alive : Bool}
    (h₀ : Owns False d₀) (hp₀ : d₀.AllProper) (hw : d₀.jit.pageModules key = some (.pending source ticket prior))
    (h : InFlight M key ticket prior d₀ d alive) :
    Owns False d ∧ d.AllProper ∧ d.jit.pageModules key = some (.pending source ticket (if alive then prior else none)) := by
  induction h with
  | start => exact ⟨h₀, hp₀, hw⟩
  | @step m d d' a alive _ ha hs hw' ih =>
    obtain ⟨hown, hprop, hstate⟩ := ih
    obtain ⟨source', left, hw'⟩ := hw'
    obtain ⟨rfl, -, rfl⟩ := hs.waiting hown hprop ha hstate hw'
    refine ⟨hs.owns hown hprop ha, hprop.step hs, hw'.trans ?_⟩
    unfold surviving
    cases alive with
    | false => rfl
    | true =>
      cases prior with
      | none => rfl
      | some code =>
        rw [if_pos rfl, Bool.true_and, Option.filter_some]
        rfl

/-- **The life of a page's module**, in every run: whatever the host answers, and whatever is evicted, invalidated or forgotten
meanwhile. -/
theorem page_module_lifecycle {settings : JitSettings} (h : Answered M settings d) :
    PageLifecycle M d ∧
      ∀ key source ticket prior, d.jit.pageModules key = some (.pending source ticket prior) →
        ∀ d' alive, InFlight M key ticket prior d d' alive →
          d'.jit.pageModules key = some (.pending source ticket (if alive then prior else none)) := by
  obtain ⟨hown, hprop⟩ := h.owns
  exact ⟨.of_exact hown hprop, fun key source ticket prior hw d' alive hflight => (hflight.carries hown hprop hw).2.2⟩

def resetKey : PageKey := (0, 0x80000000)

def firstSource : PageModuleSource := ⟨0, 1, false⟩

def secondSource : PageModuleSource := ⟨0, 2, false⟩

def resetBatch : PendingBatch := ⟨0, 0, [resetBlock], none⟩

/-- A dispatcher that has issued a build of the page. -/
def pageDispatcher : Dispatcher := hotDispatcher.issuePageModule resetKey firstSource (some resetBatch)

theorem resetBatch_ofPage : ∀ b ∈ some resetBatch, b.OfPage resetKey := by
  intro b hb
  obtain rfl := Option.some.inj hb
  refine ⟨List.cons_ne_nil _ _, fun p hp => ?_⟩
  obtain rfl := List.mem_singleton.1 hp
  exact ⟨rfl, by decide, 0x80000000, rfl⟩

/-- The next run of the dispatcher counts another pc of the page. -/
def nextRun (d : Dispatcher) : Dispatcher := { d with jitCapacityBlocked := false, jitIssuesThisRun := 0 }.countPc 0x80000010

/-- A module lands in slot 7, and a second build of its page is in flight. -/
theorem page_module_lifecycle_replaced : ∃ d live, PageLifecycle JitPageState d ∧
    d.jit.pageModules resetKey = some (.pending secondSource 2 (some live)) ∧ live.owner = 1 ∧
    ∀ d' alive, InFlight JitPageState resetKey 2 (some live) d d' alive →
      d'.jit.pageModules resetKey = some (.pending secondSource 2 (if alive then some live else none)) := by
  obtain ⟨t, ht⟩ := Option.isSome_iff_exists.1 (show (pageDispatcher.completeJit resetPages 1 7 1).isSome by decide)
  have hcold : (pageDispatcher.completeJit resetPages 1 7 1).all fun t => decide (t.2.jit.cache 0x80000010 = none) := by decide
  have htiered : (pageDispatcher.completeJit resetPages 1 7 1).all fun t =>
      decide ((nextRun t.2).jitThreshold ≤ ((nextRun t.2).jit.hot 0x80000010).getD 0) := by decide
  have hwaits : (pageDispatcher.completeJit resetPages 1 7 1).all fun t =>
      decide (((nextRun t.2).issuePageModule resetKey secondSource (some resetBatch)).jit.pageModules resetKey =
        some (.pending secondSource 2 (some ⟨firstSource, 1, [0x80000000]⟩))) := by decide
  rw [ht, Option.all_some] at hcold htiered hwaits
  have hthreshold : Answered JitPageState ⟨0, false⟩ _ :=
    Run.start.step (m := resetPages) (a := .threshold) trivial (.threshold 1)
  have hcount := hthreshold.step (m := resetPages) (a := .count 0x80000000) trivial (.count 0x80000000 rfl)
  have hissue := hcount.step (m := resetPages) (a := .pageModule) trivial
    (.pageModule (show Tiered _ 0x80000000 from ⟨rfl, by decide⟩) resetKey firstSource (some resetBatch) resetBatch_ofPage)
  have hland := hissue.step (m := resetPages) (a := .complete 1 7 1) ⟨by decide, by decide⟩ (.complete ht)
  have hrun := hland.step (m := resetPages) (a := .beginRun) trivial .beginRun
  have hagain : Answered JitPageState ⟨0, false⟩ (nextRun t.2) :=
    hrun.step (m := resetPages) (a := .count 0x80000010) trivial (.count 0x80000010 (of_decide_eq_true hcold))
  have htier : (nextRun t.2).Tiered 0x80000010 := ⟨of_decide_eq_true hcold, of_decide_eq_true htiered⟩
  have hreplace := hagain.step (m := resetPages) (a := .pageModule) trivial
    (.pageModule htier resetKey secondSource (some resetBatch) resetBatch_ofPage)
  obtain ⟨hlife, hflight⟩ := page_module_lifecycle hreplace
  exact ⟨_, _, hlife, of_decide_eq_true hwaits, rfl, hflight _ _ _ _ (of_decide_eq_true hwaits)⟩

end Dispatcher
end Lish
