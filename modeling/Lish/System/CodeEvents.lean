import Lish.System.CodeWatch
import Lish.System.VirtMachine
/-!
# CodeEvents — no write to a marked page goes unobserved

Over runs of instructions, compiled stores, device writes, marks, drains, unmarks, fills and flushes in any order: while a page
stays marked and is found clean with the write generation it had, its bytes have not changed.
-/
namespace Lish

open Machine JitPageState Dma

/-- What can happen between two moments of a run. -/
inductive CodeEvent
  /-- An instruction is fetched and executed. -/
  | step (host : Option HostFp)
  | decoded (host : Option HostFp) (d : DecodedInsn)
  | trap (e : Exception)
  | poll
  /-- An instruction address is translated. -/
  | probe (va : U64)
  | fill (va : U64) (store : Bool)
  | compiled (w : Width) (va val : U64)
  /-- Compiled code computes in the registers. -/
  | compute (x f : Fin 32 → U64) (pc insnCount : U64)
  | dma (addr : U64) (bytes : List U8)
  /-- A device processes a queue. -/
  | device (i qi : ℕ)
  /-- Bytes arrive at the serial port. -/
  | input (bytes : List U8)
  | mark (pa : U64)
  | drain
  | unmark (page : ℕ)
  | flush
  | flushPage (va : U64)

namespace CodeEvent

def onJit (m : Machine VirtBus) (g : JitPageState → JitPageState) : Machine VirtBus :=
  { m with bus := { m.bus with jit := g m.bus.jit } }

def apply (m : Machine VirtBus) : CodeEvent → Machine VirtBus
  | step host => ((Hart.step host).run exec m).2
  | decoded host d => ((Hart.executeDecoded host d).run exec m).2
  | trap e => ((Hart.exceptionToTrap e).run exec m).2
  | poll => (Hart.pollTaken.run exec m).2
  | probe va => (m.jitProbeFetch va).2
  | fill va store => (m.jitFillTlb va store).2
  | compiled w va val => compiledStore w va val m
  | compute x f pc insnCount => { m with cpu := { m.cpu with x := x, f := f, pc := pc, insnCount := insnCount } }
  | dma addr bytes => { m with bus := m.bus.setDma (m.bus.dma.guestWrite addr bytes).2 }
  | device i qi => { m with bus := m.bus.processQueue i qi }
  | input bytes => { m with bus := m.bus.uartInput bytes }
  | mark pa => codeMarkPage m pa
  | drain => onJit m fun s => s.takeDirty.2
  | unmark page => onJit m fun s => s.unmarkPage page
  | flush => { m with cpu := m.cpu.flushTlb }
  | flushPage va => { m with cpu := m.cpu.flushTlbPage va }

/-- The events happen one after another. -/
def run (es : List CodeEvent) (m : Machine VirtBus) : Machine VirtBus := es.foldl apply m

def isDrain : CodeEvent → Bool
  | drain => true
  | _ => false

theorem run_nil (m : Machine VirtBus) : run [] m = m := rfl

theorem run_append (es es' : List CodeEvent) (m : Machine VirtBus) : run (es ++ es') m = run es' (run es m) :=
  List.foldl_append

/-! ## One event -/

/-- Every event but the dispatcher's is watched. -/
def Writes : CodeEvent → Prop
  | mark _ | drain | unmark _ => False
  | _ => True

theorem watched_apply {e : CodeEvent} (he : e.Writes) (m : Machine VirtBus) : Watched m (e.apply m) := by
  cases e with
  | step host => exact .made (Hart.step_made host) m
  | decoded host d => exact .made ((Hart.executeDecoded_made host d).mono Hart.inner_apart fun _ _ => trivial) m
  | trap e => exact .made (Hart.exceptionToTrap_made e) m
  | poll => exact .made Hart.pollTaken_made m
  | probe va =>
    have h := Watched.exec m (o := .translate va .fetch) fun _ _ _ he => nomatch he
    change Watched m (m.jitProbeFetch va).2
    unfold jitProbeFetch
    rcases hr : m.translate va .fetch with ⟨e | pa, m'⟩ <;>
      rw [show Machine.exec (.translate va .fetch) m = m.translate va .fetch from rfl, hr] at h <;> exact h
  | fill va store =>
    have h := Watched.exec m (o := .translateFill va store) fun _ _ _ he => nomatch he
    change Watched m (m.jitFillTlb va store).2
    rw [show Machine.exec (.translateFill va store) m = m.translateFill va store from rfl] at h
    unfold translateFill at h
    unfold jitFillTlb
    rcases hr : m.translate va (if store then .store else .load) with ⟨e | pa, m'⟩ <;> rw [hr] at h <;> exact h
  | compiled w va val => exact watched_compiledStore w va val m
  | compute x f pc insnCount =>
    exact .of_cpu fun hs => hs.rows ⟨rfl, rfl, rfl, rfl, rfl⟩ (Cpu.SameContext.synced (c := m.cpu) (.of_eq rfl rfl) hs.synced)
  | dma addr bytes =>
    refine .of_bus ⟨⟨rfl, rfl, rfl, rfl, rfl, rfl, id⟩, fun hs => ?_⟩
    rw [VirtBus.setDma_dma (guestWrite_sameRam _ _ _)]
    exact observed_guestWrite hs addr bytes
  | device i qi => exact .of_bus ⟨VirtBus.steady_processQueue _ _ _, VirtBus.processQueue_rel dmaRel_observed _ _ _⟩
  | input bytes => exact .of_bus ⟨⟨rfl, rfl, rfl, rfl, rfl, rfl, id⟩, fun h => ⟨h, .refl _, fun _ hne => absurd rfl hne⟩⟩
  | flush =>
    exact .of_cpu fun hs => hs.emptied ⟨fun _ _ => rfl, fun _ _ => rfl, rfl, rfl⟩ (Cpu.synced_apply hs.synced .flushTlb)
  | flushPage va => exact .of_cpu fun hs => hs.flushTlbPage va
  | mark pa => exact he.elim
  | drain => exact he.elim
  | unmark page => exact he.elim

/-- A machine whose rows are sound and whose tracker is in order. -/
structure Ordered (m : Machine VirtBus) : Prop where
  sound : Sound m
  listed : Listed m.bus.jit

theorem sized_onJit {m : Machine VirtBus} (h : Sized m.bus.dma) {g : JitPageState → JitPageState}
    (hg : (g m.bus.jit).pageCount = m.bus.jit.pageCount) : Sized (onJit m g).bus.dma :=
  ⟨h.1, by
    change m.bus.ram.len ≤ (g m.bus.jit).pageCount * 4096
    rw [hg]
    exact h.2⟩

theorem Ordered.unmark {m : Machine VirtBus} (h : Ordered m) (page : ℕ) : Ordered (apply m (.unmark page)) := by
  have hmarked : ∀ p, (m.bus.jit.unmarkPage page).marked p = true → m.bus.jit.marked p = true := fun p hp => by
    unfold unmarkPage setMarked at hp
    split_ifs at hp
    · dsimp only at hp
      split_ifs at hp
      exact hp
    · exact hp
  have hsame : (m.bus.jit.unmarkPage page).pageCount = m.bus.jit.pageCount ∧ (m.bus.jit.unmarkPage page).dirty = m.bus.jit.dirty ∧
      (m.bus.jit.unmarkPage page).dirtyPages = m.bus.jit.dirtyPages := by
    unfold unmarkPage
    split_ifs <;> exact ⟨rfl, rfl, rfl⟩
  obtain ⟨hcount, hdirty, hpages⟩ := hsame
  refine ⟨?_, ?_⟩
  · refine h.sound.bus (d := (apply m (.unmark page)).bus) (sized_onJit h.sound.sized hcount) rfl rfl fun pa hpa => ?_
    change (m.bus.jit.unmarkPage page).addressMarked pa = false
    unfold addressMarked pageForAddress at hpa ⊢
    rw [hcount]
    revert hpa
    split
    · intro hpa
      by_contra hc
      rw [hmarked _ (by simpa using hc)] at hpa
      cases hpa
    · exact fun _ => rfl
  · refine ⟨?_, fun p => ?_, fun p hp => ?_, fun p hp => ?_⟩
    · change (m.bus.jit.unmarkPage page).dirtyPages.Nodup
      rw [hpages]
      exact h.listed.nodup
    · change p ∈ (m.bus.jit.unmarkPage page).dirtyPages ↔ (m.bus.jit.unmarkPage page).dirty p = true
      rw [hpages, hdirty]
      exact h.listed.mem p
    · change p < (m.bus.jit.unmarkPage page).pageCount
      rw [hcount]
      exact h.listed.markedIn p (hmarked p hp)
    · change p < (m.bus.jit.unmarkPage page).pageCount
      rw [hcount]
      exact h.listed.dirtyIn p (by rw [← hdirty]; exact hp)

theorem Ordered.drain {m : Machine VirtBus} (h : Ordered m) : Ordered (apply m .drain) ∧ ∀ p, (apply m .drain).bus.jit.dirty p = false := by
  have hclean : ∀ p, (apply m .drain).bus.jit.dirty p = false := fun p => by
    change (m.bus.jit.dirty p && !m.bus.jit.dirtyPages.contains p) = false
    cases hd : m.bus.jit.dirty p with
    | false => rfl
    | true =>
      have := (h.listed.mem p).2 hd
      simp [this]
  refine ⟨⟨?_, ⟨List.nodup_nil, fun p => ?_, h.listed.markedIn, fun p hp => ?_⟩⟩, hclean⟩
  · exact h.sound.bus (d := (apply m .drain).bus) (sized_onJit (g := fun s => s.takeDirty.2) h.sound.sized rfl) rfl rfl
      fun pa hpa => hpa
  · rw [hclean p]
    exact ⟨fun hm => (nomatch hm), fun hf => (nomatch hf)⟩
  · rw [hclean p] at hp
    cases hp

theorem Ordered.mark {m : Machine VirtBus} (h : Ordered m) (pa : U64) : Ordered (apply m (.mark pa)) := by
  have hm := marking_markAddress m.bus.jit pa
  refine ⟨sound_codeMarkPage h.sound pa, ?_⟩
  change Listed (m.bus.jit.markAddress pa).2
  refine ⟨?_, fun p => ?_, fun p hp => ?_, fun p hp => ?_⟩
  · rw [hm.dirtyPages]
    exact h.listed.nodup
  · rw [hm.dirtyPages, hm.dirty]
    exact h.listed.mem p
  · rw [hm.pageCount]
    exact (hm.marked p hp).elim (h.listed.markedIn p) id
  · rw [hm.dirty] at hp
    rw [hm.pageCount]
    exact h.listed.dirtyIn p hp

/-- **An event** keeps the machine in order. -/
theorem Ordered.apply {m : Machine VirtBus} (h : Ordered m) (e : CodeEvent) : Ordered (apply m e) := by
  by_cases he : e.Writes
  · obtain ⟨h1, -, h3⟩ := watched_apply he m h.sound
    exact ⟨h1, h3.noted.listed h.listed⟩
  · cases e with
    | mark pa => exact h.mark pa
    | drain => exact h.drain.1
    | unmark page => exact h.unmark page
    | _ => exact absurd trivial he

theorem Ordered.run {m : Machine VirtBus} (h : Ordered m) (es : List CodeEvent) : Ordered (run es m) := by
  induction es generalizing m with
  | nil => exact h
  | cons e es ih => exact ih (h.apply e)

/-! ## One page over a run -/

/-- The bytes of a page of RAM are the same. -/
def SameBytes (m m' : Machine VirtBus) (p : ℕ) : Prop := ∀ i, i / 4096 = p → m'.bus.ram.mem i = m.bus.ram.mem i

/-- What an event does to the tracking of a page: nothing, its first write, or the drain that finds it dirty. -/
inductive PageStep (e : CodeEvent) (p : ℕ) (s s' : JitPageState) : Prop
  | same (hd : s'.dirty p = s.dirty p) (hg : s'.writeGenerations p = s.writeGenerations p)
  | written (hd : s.dirty p = false) (hd' : s'.dirty p = true) (hg : s'.writeGenerations p = s.writeGenerations p + 1)
  | drained (he : isDrain e = true) (hd : s.dirty p = true) (hd' : s'.dirty p = false)
      (hg : s'.writeGenerations p = s.writeGenerations p)

theorem pageStep_apply {m : Machine VirtBus} (h : Ordered m) (e : CodeEvent) (p : ℕ) :
    PageStep e p m.bus.jit (apply m e).bus.jit := by
  by_cases he : e.Writes
  · rcases (watched_apply he m h.sound).2.2.noted.page p with ⟨h1, h2⟩ | ⟨-, h2, h3, h4⟩
    · exact .same h1 h2
    · exact .written h2 h3 h4
  · cases e with
    | mark pa =>
      have hm := marking_markAddress m.bus.jit pa
      exact .same (congrFun hm.dirty p) (congrFun hm.writeGenerations p)
    | drain =>
      have hc := h.drain.2 p
      cases hd : m.bus.jit.dirty p with
      | false => exact .same (hc.trans hd.symm) rfl
      | true => exact .drained rfl hd hc rfl
    | unmark page =>
      change PageStep _ p m.bus.jit (m.bus.jit.unmarkPage page)
      unfold unmarkPage
      split_ifs <;> exact .same rfl rfl
    | _ => exact absurd trivial he

/-- **One event** leaves a marked page dirty, if it changes a byte of it. -/
theorem apply_dirty {m : Machine VirtBus} (h : Ordered m) (e : CodeEvent) {i : ℕ} (hne : (apply m e).bus.ram.mem i ≠ m.bus.ram.mem i)
    (hm : m.bus.jit.marked (i / 4096) = true) : (apply m e).bus.jit.dirty (i / 4096) = true := by
  by_cases he : e.Writes
  · exact (watched_apply he m h.sound).2.2.changed i hne hm
  · cases e with
    | mark pa => exact absurd rfl hne
    | drain => exact absurd rfl hne
    | unmark page => exact absurd rfl hne
    | _ => exact absurd trivial he

/-- A page stays marked until it is unmarked. -/
theorem apply_marked {m : Machine VirtBus} (h : Ordered m) {e : CodeEvent} {p : ℕ} (he : e ≠ .unmark p)
    (hm : m.bus.jit.marked p = true) : (apply m e).bus.jit.marked p = true := by
  by_cases hw : e.Writes
  · rw [show (apply m e).bus.jit.marked = m.bus.jit.marked from (watched_apply hw m h.sound).2.2.noted.marked]
    exact hm
  · cases e with
    | mark pa =>
      change (m.bus.jit.markAddress pa).2.marked p = true
      unfold markAddress
      cases m.bus.jit.pageForAddress pa with
      | none => exact hm
      | some page =>
        change (if p = page then true else m.bus.jit.marked p) = true
        split_ifs
        · rfl
        · exact hm
    | drain => exact hm
    | unmark page =>
      change (m.bus.jit.unmarkPage page).marked p = true
      unfold unmarkPage setMarked
      split_ifs
      · dsimp only
        rw [if_neg fun hp => he (by rw [hp])]
        exact hm
      · exact hm
    | _ => exact absurd trivial hw

/-- A page that was clean and has been dirty since has moved its generation once. -/
theorem run_generation {m : Machine VirtBus} (h : Ordered m) {p : ℕ} (es : List CodeEvent) (hne : es ≠ []) (hc : m.bus.jit.dirty p = false)
    (hd : ∀ k, 0 < k → k ≤ es.length → (run (es.take k) m).bus.jit.dirty p = true) :
    (run es m).bus.jit.writeGenerations p = m.bus.jit.writeGenerations p + 1 := by
  induction es using List.reverseRecOn with
  | nil => exact absurd rfl hne
  | append_singleton es e ih =>
    have hlast := hd (es ++ [e]).length (by simp) le_rfl
    rw [List.take_length, run_append] at hlast
    rw [run_append]
    have hstep := pageStep_apply (h.run es) e p
    change (apply (run es m) e).bus.jit.dirty p = true at hlast
    change (apply (run es m) e).bus.jit.writeGenerations p = _
    by_cases hes : es = []
    · subst hes
      rw [run_nil] at hstep hlast ⊢
      cases hstep with
      | same hd' hg => rw [hd', hc] at hlast; cases hlast
      | written _ _ hg => exact hg
      | drained _ _ hd' _ => rw [hd'] at hlast; cases hlast
    · have hpre := hd es.length (List.length_pos_of_ne_nil hes) (by simp)
      rw [List.take_left] at hpre
      have hgen := ih hes fun k hk hk' => by
        have := hd k hk (by rw [List.length_append]; omega)
        rwa [List.take_append_of_le_length hk'] at this
      cases hstep with
      | same _ hg => exact hg.trans hgen
      | written hd' _ _ => rw [hpre] at hd'; cases hd'
      | drained _ _ hd' _ => rw [hd'] at hlast; cases hlast

/-- **While a page stays marked**, its generation counts its first writes, each drained but the last; before any, nothing
has changed. -/
theorem run_firstWrites {m : Machine VirtBus} (h : Ordered m) {p : ℕ} (hm : m.bus.jit.marked p = true) (hc : m.bus.jit.dirty p = false)
    (es : List CodeEvent) (hu : ∀ e ∈ es, e ≠ .unmark p) :
    (run es m).bus.jit.marked p = true ∧ ∃ n,
      (run es m).bus.jit.writeGenerations p = m.bus.jit.writeGenerations p + BitVec.ofNat 64 n ∧
        n ≤ es.countP isDrain + (if (run es m).bus.jit.dirty p then 1 else 0) ∧
          (n = 0 → (run es m).bus.jit.dirty p = false ∧ SameBytes m (run es m) p) := by
  induction es using List.reverseRecOn with
  | nil => exact ⟨hm, 0, (BitVec.add_zero _).symm, Nat.zero_le _, fun _ => ⟨hc, fun _ _ => rfl⟩⟩
  | append_singleton es e ih =>
    obtain ⟨hmark, n, hgen, hn, hzero⟩ := ih fun e' he' => hu e' (List.mem_append_left _ he')
    rw [run_append, List.countP_append]
    change (apply (run es m) e).bus.jit.marked p = true ∧ _
    have hord := h.run es
    have hstep := pageStep_apply hord e p
    have hmark' := apply_marked hord (hu e (by simp)) hmark
    refine ⟨hmark', ?_⟩
    change ∃ n, (apply (run es m) e).bus.jit.writeGenerations p = _ ∧ _ ≤ _ + (if (apply (run es m) e).bus.jit.dirty p = true then 1 else 0) ∧
      (_ → (apply (run es m) e).bus.jit.dirty p = false ∧ SameBytes m (apply (run es m) e) p)
    cases hstep with
    | same hd hg =>
      refine ⟨n, hg.trans hgen, ?_, fun h0 => ?_⟩
      · rw [hd]
        omega
      · obtain ⟨hclean, hbytes⟩ := hzero h0
        have hclean' := hd.trans hclean
        refine ⟨hclean', fun i hi => ?_⟩
        by_contra hne
        have hne' : (apply (run es m) e).bus.ram.mem i ≠ (run es m).bus.ram.mem i := fun he => hne (he.trans (hbytes i hi))
        have hdirty := apply_dirty hord e hne' (by rw [hi]; exact hmark)
        rw [hi, hclean'] at hdirty
        cases hdirty
    | written hd hd' hg =>
      refine ⟨n + 1, ?_, ?_, fun h0 => absurd h0 (Nat.succ_ne_zero n)⟩
      · rw [hg, hgen, BitVec.ofNat_add, add_assoc]
        rfl
      · rw [hd] at hn
        rw [hd', if_pos rfl]
        simp only [Bool.false_eq_true, if_false] at hn
        omega
    | drained he hd hd' hg =>
      refine ⟨n, hg.trans hgen, ?_, fun h0 => ?_⟩
      · rw [hd, if_pos rfl] at hn
        rw [List.countP_singleton, he, if_pos rfl]
        omega
      · rw [(hzero h0).1] at hd
        cases hd

end CodeEvent
end Lish
