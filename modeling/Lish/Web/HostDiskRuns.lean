import Lish.Web.HostDisk
/-!
# HostDiskRuns — one disk operation for each request

While machines are started and reset with the disk quiet, one tick at most is current, and one slice or disk operation is
under way: the operation in flight is the one of the request that is pending.
-/
namespace Lish
namespace RV64

open GuestDisk

variable {size : U64} {v v' : RV64}

/-! ## The guest's disk -/

/-- The disk is that of a machine since its boot. -/
def Booted (size : U64) (s : GuestDisk) : Prop := ∃ l, VirtioDev.Reaches size s.1 s.2 l

theorem booted_fresh (size : U64) (m : Dma) : Booted size (.fresh size m) := ⟨_, .new m⟩

theorem fresh_pending (size : U64) (m : Dma) : (fresh size m).pending = none := rfl

theorem Booted.memory {s : GuestDisk} {m : Dma} (h : Booted size s) (hm : Dma.SameRam s.2 m) : Booted size (s.1, m) := by
  obtain ⟨l, hl⟩ := h
  exact ⟨l, hl.memory hm⟩

theorem Booted.step {s s' : GuestDisk} (h : Booted size s) (hs : GuestStep s s') : Booted size s' := by
  obtain ⟨l, hl⟩ := h
  cases hs with
  | memory hm => exact ⟨l, hl.memory hm⟩
  | write d m offset val => exact ⟨_, hl.write offset val⟩
  | @process d d' m m' fuel qi hp =>
    rw [VirtioDev.ledgerProcess_fst fuel d qi m l] at hp
    obtain ⟨⟨⟨d₁, m₁⟩, l'⟩, hl', he⟩ := Option.map_eq_some_iff.1 hp
    cases he
    exact ⟨l', hl.process fuel qi hl'⟩

theorem Booted.slice {s s' : GuestDisk} (h : Booted size s) (hs : GuestSlice s s') : Booted size s' := by
  cases hs with
  | waits hp hm => exact h.memory hm
  | runs hp hr =>
    induction hr with
    | refl => exact h
    | tail _ hstep ih => exact ih.step hstep

/-- A request that is pending stays through a slice. -/
theorem GuestSlice.pending {s s' : GuestDisk} (hs : GuestSlice s s') (hp : s.pending.isSome) : s'.pending.isSome := by
  cases hs with
  | waits hp hm => exact hp
  | runs hn hr =>
    rw [hn] at hp
    cases hp

/-- The request that is pending is completed. -/
theorem Booted.complete {s : GuestDisk} (h : Booted size s) (hp : s.pending.isSome) (data : List U8) (ok : Bool) :
    ∃ s', s.virtDiskComplete data ok = (true, s') ∧ s'.pending = none ∧ Booted size s' := by
  obtain ⟨l, hl⟩ := h
  obtain ⟨r, hr⟩ := Option.isSome_iff_exists.1 hp
  have hc := (VirtioDev.settled_of_reaches hl).complete_pending hr data ok
  have hreach := hl.complete r.id data ok hc
  refine ⟨(_, _), ?_, rfl, _, hreach⟩
  unfold virtDiskComplete
  rw [hr]
  exact hc

/-! ## Ticks -/

def Microtask.generation? : Microtask → Option ℕ
  | .tick _ g _ => some g
  | .method _ => none

/-- One tick at most is current, of those yielded, of those under way and of those about to go on; no boot is to come while
a slice or a disk operation is under way. -/
structure Turns (running : Bool) (g : ℕ) (busy : List ℕ) (tasks : List Microtask) (yielded : List ℕ) : Prop where
  one : busy.length ≤ 1
  current : ∀ x ∈ busy, running = true → x = g
  calm : busy ≠ [] → ∀ t ∈ tasks, t = .method .destroy ∧ running = false
  single : yielded.count g + busy.count g + (tasks.filterMap Microtask.generation?).count g ≤ 1
  past : ∀ x, x ∈ yielded ∨ x ∈ busy ∨ x ∈ tasks.filterMap Microtask.generation? → x ≤ g

namespace Turns

variable {running : Bool} {g x : ℕ} {busy yielded a b : List ℕ} {tasks c d : List Microtask} {t : Microtask}

theorem init : Turns false 0 [] [] [] :=
  ⟨Nat.zero_le 1, fun _ h => absurd h List.not_mem_nil, fun h => absurd rfl h, Nat.zero_le 1, fun _ h => by simp at h⟩

/-- No tick is of the next generation. -/
theorem fresh (h : Turns running g busy tasks yielded) :
    yielded.count (g + 1) = 0 ∧ busy.count (g + 1) = 0 ∧ (tasks.filterMap Microtask.generation?).count (g + 1) = 0 := by
  have hle := fun hm => Nat.not_succ_le_self g (h.past (g + 1) hm)
  exact ⟨List.count_eq_zero.2 fun hm => hle (.inl hm), List.count_eq_zero.2 fun hm => hle (.inr (.inl hm)),
    List.count_eq_zero.2 fun hm => hle (.inr (.inr hm))⟩

/-- A stopped machine has no current tick to come. -/
theorem halt (h : Turns running g busy tasks yielded) : Turns false (g + 1) busy tasks yielded := by
  obtain ⟨h1, h2, h3⟩ := h.fresh
  exact ⟨h.one, fun _ _ hr => (nomatch hr), fun hb t ht => ⟨(h.calm hb t ht).1, rfl⟩, by omega,
    fun x hx => (h.past x hx).trans (Nat.le_succ g)⟩

theorem next (h : Turns running g busy tasks yielded) (hb : busy ≠ [] → running = false) :
    Turns running (g + 1) busy tasks yielded := by
  obtain ⟨h1, h2, h3⟩ := h.fresh
  refine ⟨h.one, fun x hx hr => ?_, h.calm, by omega, fun x hx => (h.past x hx).trans (Nat.le_succ g)⟩
  rw [hb (List.ne_nil_of_mem hx)] at hr
  cases hr

theorem off (h : Turns running g busy tasks yielded) : Turns false g busy tasks yielded :=
  ⟨h.one, fun _ _ hr => (nomatch hr), fun hb t ht => ⟨(h.calm hb t ht).1, rfl⟩, h.single, h.past⟩

theorem start (h : Turns running g [] tasks yielded) : Turns true (g + 1) [] tasks (yielded ++ [g + 1]) := by
  obtain ⟨h1, -, h3⟩ := h.fresh
  refine ⟨h.one, fun _ hx => absurd hx List.not_mem_nil, fun hb => absurd rfl hb, ?_, fun x hx => ?_⟩
  · rw [List.count_append, List.count_singleton_self, h1, h3]
    exact le_rfl
  · rcases hx with hx | hx | hx
    · rcases List.mem_append.1 hx with hx | hx
      · exact (h.past x (.inl hx)).trans (Nat.le_succ g)
      · exact (List.mem_singleton.1 hx).le
    · exact absurd hx List.not_mem_nil
    · exact (h.past x (.inr (.inr hx))).trans (Nat.le_succ g)

theorem push (h : Turns running g busy tasks yielded) {k : Continuation} (hk : busy ≠ [] → k = .destroy ∧ running = false) :
    Turns running g busy (tasks ++ [.method k]) yielded := by
  have he : (tasks ++ [Microtask.method k]).filterMap Microtask.generation? = tasks.filterMap Microtask.generation? := by
    rw [List.filterMap_append]
    exact List.append_nil _
  refine ⟨h.one, h.current, fun hb t ht => ?_, he ▸ h.single, he ▸ h.past⟩
  rcases List.mem_append.1 ht with ht | ht
  · exact h.calm hb t ht
  · obtain ⟨rfl, hr⟩ := hk hb
    exact ⟨List.mem_singleton.1 ht, hr⟩

theorem drop (h : Turns running g busy (c ++ t :: d) yielded) : Turns running g busy (c ++ d) yielded := by
  have hsub : (c ++ d).Sublist (c ++ t :: d) := List.Sublist.append_left (List.sublist_cons_self t d) c
  have hf := hsub.filterMap Microtask.generation?
  refine ⟨h.one, h.current, fun hb t' ht => h.calm hb t' (hsub.subset ht), ?_,
    fun x hx => h.past x (hx.imp_right fun hx => hx.imp_right fun hx => hf.subset hx)⟩
  have hc := hf.count_le g
  have hs := h.single
  omega

theorem skip (h : Turns running g busy tasks (a ++ x :: b)) : Turns running g busy tasks (a ++ b) := by
  have hsub : (a ++ b).Sublist (a ++ x :: b) := List.Sublist.append_left (List.sublist_cons_self x b) a
  refine ⟨h.one, h.current, h.calm, ?_, fun y hy => h.past y (hy.imp_left fun hy => hsub.subset hy)⟩
  have hc := hsub.count_le g
  have hs := h.single
  omega

/-- The current tick runs a slice: nothing else is under way. -/
theorem enter (h : Turns true g busy [] (a ++ g :: b)) : busy = [] ∧ Turns true g [g] [] (a ++ b) := by
  have hs := h.single
  rw [List.count_append, List.count_cons_self] at hs
  have hb : busy = [] := by
    cases busy with
    | nil => rfl
    | cons y busy =>
      rw [h.current y List.mem_cons_self rfl, List.count_cons_self] at hs
      omega
  refine ⟨hb, le_rfl, fun x hx _ => List.mem_singleton.1 hx, fun _ _ ht => absurd ht List.not_mem_nil, ?_, fun x hx => ?_⟩
  · rw [List.count_append, List.count_singleton_self]
    omega
  · rcases hx with hx | hx | hx
    · exact h.skip.past x (.inl hx)
    · exact (List.mem_singleton.1 hx).le
    · exact absurd hx List.not_mem_nil

theorem idle (h : Turns running g [x] tasks yielded) : Turns running g [] tasks yielded := by
  refine ⟨Nat.zero_le 1, fun _ hx => absurd hx List.not_mem_nil, fun hb => absurd rfl hb, ?_,
    fun y hy => h.past y (hy.imp_right fun hy => .inr (hy.resolve_left List.not_mem_nil))⟩
  have hs := h.single
  rw [List.count_nil]
  omega

/-- The tick under way yields to the host. -/
theorem yield (h : Turns running g [x] tasks yielded) : Turns running g [] tasks (yielded ++ [x]) := by
  refine ⟨Nat.zero_le 1, fun _ hx => absurd hx List.not_mem_nil, fun hb => absurd rfl hb, ?_, fun y hy => ?_⟩
  · have hs := h.single
    rw [List.count_append, List.count_nil]
    omega
  · rcases hy with hy | hy | hy
    · exact h.past y ((List.mem_append.1 hy).imp_right .inl)
    · exact absurd hy List.not_mem_nil
    · exact h.past y (.inr (.inr hy))

/-- The operation under way settles. -/
theorem settle (h : Turns running g [x] tasks yielded) (op : ℕ) (ok : Bool) (ks : List Continuation) :
    Turns running g [] (tasks ++ .tick op x ok :: ks.map .method) yielded := by
  have hk : (ks.map Microtask.method).filterMap Microtask.generation? = [] := by
    rw [List.filterMap_map]
    exact List.filterMap_eq_nil_iff.2 fun _ _ => rfl
  have he : (tasks ++ Microtask.tick op x ok :: ks.map Microtask.method).filterMap Microtask.generation? =
      tasks.filterMap Microtask.generation? ++ [x] := by
    rw [List.filterMap_append]
    change _ ++ x :: (ks.map Microtask.method).filterMap Microtask.generation? = _
    rw [hk]
  refine ⟨Nat.zero_le 1, fun _ hx => absurd hx List.not_mem_nil, fun hb => absurd rfl hb, ?_, fun y hy => ?_⟩
  · have hs := h.single
    rw [he, List.count_append, List.count_nil]
    omega
  · rw [he] at hy
    rcases hy with hy | hy | hy
    · exact h.past y (.inl hy)
    · exact absurd hy List.not_mem_nil
    · exact h.past y (.inr ((List.mem_append.1 hy).symm))

/-- The tick whose operation has settled yields to the host. -/
theorem resume {op : ℕ} {ok : Bool} (h : Turns running g busy (c ++ .tick op x ok :: d) yielded) :
    busy = [] ∧ Turns running g busy (c ++ d) (yielded ++ [x]) := by
  have hb : busy = [] := by
    by_contra hb
    exact nomatch (h.calm hb (.tick op x ok) (List.mem_append_right c List.mem_cons_self)).1
  have he : (c ++ Microtask.tick op x ok :: d).filterMap Microtask.generation? =
      c.filterMap Microtask.generation? ++ x :: d.filterMap Microtask.generation? := by
    rw [List.filterMap_append]
    rfl
  refine ⟨hb, h.one, h.current, h.drop.calm, ?_, fun y hy => ?_⟩
  · have hs := h.single
    rw [he, List.count_append, List.count_cons] at hs
    rw [List.filterMap_append, List.count_append, List.count_append, List.count_cons, List.count_nil]
    omega
  · rcases hy with hy | hy
    · rcases List.mem_append.1 hy with hy | hy
      · exact h.past y (.inl hy)
      · rw [List.mem_singleton.1 hy]
        exact h.past x (.inr (.inr (he ▸ List.mem_append_right _ List.mem_cons_self)))
    · exact h.drop.past y (.inr hy)

end Turns

/-! ## The invariant -/

/-- The generations of the slice and of the disk operations under way. -/
def busy (v : RV64) : List ℕ := v.slicing.toList ++ v.flight.map (·.generation)

def Current (v : RV64) : Prop := Turns v.running v.generation v.busy v.microtasks v.yielded

/-- An operation in flight is the one that methods await, and the request it was issued for is pending. -/
structure Operating (v : RV64) : Prop where
  awaited : ∀ op ∈ v.flight, v.diskOperation = some op.id
  unsettled : ∀ op ∈ v.flight, ∀ e ∈ v.settled, e.1 ≠ op.id
  begun : ∀ op ∈ v.flight, op.id < v.serviced.length
  request : ∀ op ∈ v.flight, op.request = v.issued
  pending : v.flight ≠ [] → v.disk.pending.isSome
  past : ∀ e ∈ v.settled, e.1 < v.serviced.length

/-- The records of requests. -/
structure Recorded (v : RV64) : Prop where
  exact : v.ExactDisk
  serviced : ∀ n ∈ v.serviced, n ≤ v.issued
  completed : ∀ c ∈ v.completed, c.2 ≤ v.issued
  unserviced : v.disk.pending.isSome → v.flight = [] → v.issued ∉ v.serviced
  uncompleted : v.disk.pending.isSome → ∀ c ∈ v.completed, c.2 ≠ v.issued

structure Sound (size : U64) (v : RV64) : Prop where
  booted : Booted size v.disk
  current : v.Current
  operating : v.Operating
  recorded : v.Recorded

theorem sound_create (size : U64) (m : Dma) : Sound size (create size m) where
  booted := booted_fresh size m
  current := .init
  operating := ⟨fun _ h => absurd h List.not_mem_nil, fun _ h => absurd h List.not_mem_nil,
    fun _ h => absurd h List.not_mem_nil, fun _ h => absurd h List.not_mem_nil, fun h => absurd rfl h, fun _ h => absurd h List.not_mem_nil⟩
  recorded := ⟨⟨List.nodup_nil, fun _ h => absurd h List.not_mem_nil, List.nodup_nil⟩, fun _ h => absurd h List.not_mem_nil,
    fun _ h => absurd h List.not_mem_nil, (nomatch ·), (nomatch ·)⟩

/-- The part of the state that concerns disk operations. -/
def diskPart (v : RV64) : GuestDisk × List DiskOperation × Option ℕ × List (ℕ × Bool) × List ℕ × ℕ × List (ℕ × ℕ) :=
  (v.disk, v.flight, v.diskOperation, v.settled, v.serviced, v.issued, v.completed)

/-- What leaves disk operations alone has the ticks to keep only. -/
theorem Sound.same (h : Sound size v) (he : v'.diskPart = v.diskPart) (hc : v'.Current) : Sound size v' := by
  simp only [diskPart, Prod.mk.injEq] at he
  obtain ⟨hd, hf, ho, hs, hsv, hi, hcp⟩ := he
  obtain ⟨hb, -, hop, ⟨⟨h1, h2, h3⟩, h4, h5, h6, h7⟩⟩ := h
  refine ⟨hd ▸ hb, hc, ?_, ⟨⟨?_, ?_, ?_⟩, ?_, ?_, ?_, ?_⟩⟩
  · constructor
    · rw [hf, ho]
      exact hop.awaited
    · rw [hf, hs]
      exact hop.unsettled
    · rw [hf, hsv]
      exact hop.begun
    · rw [hf, hi]
      exact hop.request
    · rw [hf, hd]
      exact hop.pending
    · rw [hs, hsv]
      exact hop.past
  · rwa [hsv]
  · rwa [hcp]
  · rwa [hcp]
  · rwa [hsv, hi]
  · rwa [hcp, hi]
  · rwa [hd, hf, hsv, hi]
  · rwa [hd, hcp, hi]

/-! ## Methods -/

theorem halt_running (v : RV64) : v.halt.running = false := by
  unfold RV64.halt
  split_ifs with hr
  · rfl
  · exact eq_false_of_ne_true hr

theorem Sound.halt (h : Sound size v) : Sound size v.halt := by
  unfold RV64.halt
  split_ifs
  · exact h.same rfl h.current.halt
  · exact h

theorem Sound.start (h : Sound size v) (hb : v.running = false → v.busy = []) : Sound size v.start := by
  unfold RV64.start
  split_ifs with hr
  · exact h
  · refine h.same rfl ?_
    have hc := h.current
    have hb' := hb (eq_false_of_ne_true hr)
    unfold Current at hc ⊢
    rw [hb'] at hc
    change Turns true (v.generation + 1) v.busy v.microtasks (v.yielded ++ [v.generation + 1])
    rw [hb']
    exact hc.start

/-- A method that awaits leaves a microtask at most. -/
theorem Sound.await (h : Sound size v) {k : Continuation} (hk : v.busy ≠ [] → k = .destroy ∧ v.running = false) :
    Sound size (v.await k) := by
  have hpush : Sound size { v with microtasks := v.microtasks ++ [.method k] } := h.same rfl (h.current.push hk)
  unfold RV64.await
  split
  · exact hpush
  · split
    · exact h.same rfl h.current
    · exact hpush
    · exact h

theorem busy_of_quiet (hs : v.slicing = none) (hf : v.flight = []) : v.busy = [] := by
  unfold busy
  rw [hs, hf]
  rfl

theorem slicing_of_busy (hb : v.busy = []) : v.slicing = none ∧ v.flight = [] := by
  obtain ⟨h1, h2⟩ := List.append_eq_nil_iff.1 hb
  exact ⟨Option.toList_eq_nil_iff.1 h1, List.map_eq_nil_iff.1 h2⟩

/-- A reset while an operation is in flight waits for it. -/
theorem Sound.await_flight (h : Sound size v) (hf : v.flight ≠ []) (k : Continuation) : Sound size (v.await k) := by
  obtain ⟨op, hop⟩ := List.exists_mem_of_ne_nil _ hf
  have hl : v.settled.lookup op.id = none :=
    List.lookup_eq_none_iff.2 fun e he => bne_iff_ne.2 (h.operating.unsettled op hop e he).symm
  have ho := h.operating.awaited op hop
  unfold RV64.await
  split
  · next hn =>
    rw [hn] at ho
    cases ho
  · next op' hs =>
    obtain rfl := Option.some.inj (hs.symm.trans ho)
    split
    · exact h.same rfl h.current
    · next hr =>
      rw [hl] at hr
      cases hr
    · next hr =>
      rw [hl] at hr
      cases hr

theorem Sound.assemble (h : Sound size v) (hb : v.busy = []) (m : Dma) : Sound size (v.assemble size m) := by
  obtain ⟨-, hf⟩ := slicing_of_busy hb
  exact {
    booted := booted_fresh size m
    current := h.current
    operating := ⟨h.operating.awaited, h.operating.unsettled, h.operating.begun, h.operating.request, fun hne => absurd hf hne,
      h.operating.past⟩
    recorded := ⟨⟨h.recorded.exact.once, h.recorded.exact.own, h.recorded.exact.completedOnce⟩, h.recorded.serviced,
      h.recorded.completed, (nomatch ·), (nomatch ·)⟩ }

theorem Sound.reset (h : Sound size v) (ha : v.Awaits .reset) (m : Dma) : Sound size (v.reset size m) := by
  obtain ⟨hs, hf⟩ := ha
  unfold RV64.reset
  split_ifs with hr
  · by_cases hfl : v.halt.flight = []
    · have hb : v.halt.busy = [] := by
        refine busy_of_quiet ?_ hfl
        unfold RV64.halt
        rw [if_pos hr]
        exact hs
      exact h.halt.await fun hne => absurd hb hne
    · exact h.halt.await_flight hfl .reset
  · exact h.assemble (busy_of_quiet hs (hf (eq_false_of_ne_true hr))) m

theorem Sound.destroy (h : Sound size v) : Sound size v.destroy := by
  unfold RV64.destroy
  split_ifs
  · exact h
  · exact h.halt.await fun _ => ⟨rfl, halt_running v⟩

/-- The rest of a method that boots a machine runs with nothing under way. -/
theorem Sound.resume {a b : List Microtask} {k : Continuation} (h : Sound size v) (ht : v.microtasks = a ++ .method k :: b)
    (m : Dma) : Sound size ({ v with microtasks := a ++ b }.resume size m k) := by
  have hc := h.current
  unfold Current at hc
  rw [ht] at hc
  have hd : Sound size { v with microtasks := a ++ b } := h.same rfl hc.drop
  have hcalm := fun hb => hc.calm hb (.method k) (List.mem_append_right a List.mem_cons_self)
  have hb : k ≠ .destroy → v.busy = [] := fun hk => by
    by_contra hb
    exact hk (Microtask.method.inj (hcalm hb).1)
  unfold RV64.resume
  cases k with
  | reset =>
    dsimp only
    split_ifs
    · exact hd
    · have hq := hb (by decide)
      exact (hd.assemble hq m).same rfl ((hd.assemble hq m).current.push fun hne => absurd hq hne)
  | restart =>
    dsimp only
    split_ifs
    · exact hd
    · exact hd.start fun _ => hb (by decide)
  | destroy =>
    refine hd.same rfl (hd.current.next fun hne => (hcalm hne).2)

/-! ## The tick -/

theorem Sound.enter {a b : List ℕ} {g : ℕ} (h : Sound size v) (hm : v.microtasks = [])
    (hy : v.yielded = a ++ g :: b) : Sound size (enter { v with yielded := a ++ b } g) := by
  have hc := h.current
  unfold Current at hc
  rw [hy, hm] at hc
  unfold RV64.enter
  split_ifs with hg
  · refine h.same rfl ?_
    change Turns v.running v.generation v.busy v.microtasks (a ++ b)
    rw [hm]
    exact hc.skip
  · simp only [Bool.or_eq_true, Bool.not_eq_true', decide_eq_true_eq, not_or, Bool.not_eq_false, not_not] at hg
    obtain ⟨hr, rfl⟩ := hg
    rw [hr] at hc
    obtain ⟨hb, hc⟩ := hc.enter
    refine h.same rfl ?_
    change Turns v.running v.generation (v.generation :: v.flight.map (·.generation)) v.microtasks (a ++ b)
    rw [hr, hm, (slicing_of_busy hb).2]
    exact hc

/-- The disk after a slice: a request that is pending is a new one, or was pending before. -/
theorem Sound.sliced {s : GuestDisk} (h : Sound size v) (hd : GuestSlice v.disk s) (hc : (v.sliced s).Current)
    (hf : v.flight = []) : Sound size (v.sliced s) := by
  have hle : v.issued ≤ (v.sliced s).issued := by
    unfold RV64.sliced
    dsimp only
    split_ifs <;> omega
  have hnew : s.pending.isSome → v.disk.pending.isSome ∨ (v.sliced s).issued = v.issued + 1 := fun hp => by
    cases hv : v.disk.pending with
    | some r => exact .inl rfl
    | none =>
      refine .inr ?_
      unfold RV64.sliced
      rw [hv, hp]
      rfl
  have hold : v.disk.pending.isSome → (v.sliced s).issued = v.issued := fun hp => by
    unfold RV64.sliced
    dsimp only
    rw [if_neg]
    simp [Option.isSome_iff_ne_none.1 hp]
  exact {
    booted := h.booted.slice hd
    current := hc
    operating := by
      have hn : ∀ {op}, op ∉ v.flight := fun {op} => hf ▸ List.not_mem_nil
      exact ⟨fun _ h => absurd h hn, fun _ h => absurd h hn, fun _ h => absurd h hn, fun _ h => absurd h hn,
        fun hne => absurd hf hne, h.operating.past⟩
    recorded := {
      exact := ⟨h.recorded.exact.once, h.recorded.exact.own, h.recorded.exact.completedOnce⟩
      serviced := fun n hn => (h.recorded.serviced n hn).trans hle
      completed := fun c hcm => (h.recorded.completed c hcm).trans hle
      unserviced := fun hp _ hm => by
        rcases hnew hp with ho | hi
        · rw [hold ho] at hm
          exact h.recorded.unserviced ho hf hm
        · rw [hi] at hm
          exact Nat.not_succ_le_self _ (h.recorded.serviced _ hm)
      uncompleted := fun hp c hcm he => by
        rcases hnew hp with ho | hi
        · exact h.recorded.uncompleted ho c hcm (he.trans (hold ho))
        · have hle := h.recorded.completed c hcm
          rw [he, hi] at hle
          exact Nat.not_succ_le_self _ hle } }

theorem flight_of_slicing {g : ℕ} (hc : v.Current) (hs : v.slicing = some g) : v.flight = [] := by
  have h1 := hc.one
  unfold busy at h1
  rw [hs, List.length_append, List.length_map] at h1
  change 1 + v.flight.length ≤ 1 at h1
  exact List.length_eq_zero_iff.1 (by omega)

theorem flight_alone {a b : List DiskOperation} {op : DiskOperation} (hc : v.Current) (hf : v.flight = a ++ op :: b) :
    v.slicing = none ∧ a = [] ∧ b = [] := by
  have h1 := hc.one
  unfold busy at h1
  rw [hf, List.length_append, List.length_map, List.length_append, List.length_cons] at h1
  exact ⟨Option.toList_eq_nil_iff.1 (List.length_eq_zero_iff.1 (by omega)), List.length_eq_zero_iff.1 (by omega),
    List.length_eq_zero_iff.1 (by omega)⟩

theorem Sound.leave {g : ℕ} {s : GuestDisk} (h : Sound size v) (hs : v.slicing = some g) (hd : GuestSlice v.disk s)
    (poweredOff : Option Bool) : Sound size (v.leave g s poweredOff) := by
  have hf := flight_of_slicing h.current hs
  have hc : Turns v.running v.generation [g] v.microtasks v.yielded := by
    have hc := h.current
    unfold Current busy at hc
    rwa [hs, hf] at hc
  have hbusy : (v.sliced s).busy = [] := busy_of_quiet rfl hf
  have hcur : (v.sliced s).Current := by
    unfold Current
    rw [hbusy]
    exact hc.idle
  have hsl := h.sliced hd hcur hf
  have hoff : Sound size { v.sliced s with running := false } := hsl.same rfl hcur.off
  unfold RV64.leave
  cases poweredOff with
  | none => exact hoff
  | some off =>
    dsimp only
    split_ifs with hp
    · have hid : ∀ op ∈ ((v.sliced s).serviceDisk g).flight, op = ⟨v.serviced.length, g, (v.sliced s).issued⟩ := by
        intro op hop
        change op ∈ v.flight ++ [_] at hop
        rw [hf] at hop
        exact List.mem_singleton.1 hop
      have hlen : ((v.sliced s).serviceDisk g).serviced.length = v.serviced.length + 1 := List.length_append
      exact {
        booted := hsl.booted
        current := by
          change Turns v.running v.generation ((v.flight ++ [_]).map DiskOperation.generation) v.microtasks v.yielded
          rw [hf]
          exact hc
        operating := {
          awaited := fun op hop => by rw [hid op hop]; rfl
          unsettled := fun op hop e he => by rw [hid op hop]; exact (h.operating.past e he).ne
          begun := fun op hop => by rw [hid op hop, hlen]; exact Nat.lt_succ_self _
          request := fun op hop => by rw [hid op hop]; rfl
          pending := fun _ => hp
          past := fun e he => by rw [hlen]; exact (h.operating.past e he).trans (Nat.lt_succ_self _) }
        recorded := {
          exact := ⟨List.nodup_append'.2 ⟨hsl.recorded.exact.once, List.nodup_singleton _,
            List.disjoint_singleton.2 (hsl.recorded.unserviced hp hf)⟩, hsl.recorded.exact.own,
            hsl.recorded.exact.completedOnce⟩
          serviced := fun n hn => by
            rcases List.mem_append.1 hn with hn | hn
            · exact hsl.recorded.serviced n hn
            · exact (List.mem_singleton.1 hn).le
          completed := hsl.recorded.completed
          unserviced := fun _ hn => absurd hn (by change v.flight ++ [_] ≠ []; simp)
          uncompleted := hsl.recorded.uncompleted } }
    · exact hoff
    · refine hsl.same rfl ?_
      change Turns v.running v.generation (v.sliced s).busy v.microtasks (v.yielded ++ [g])
      rw [hbusy]
      exact hc.yield

/-! ## Results -/

theorem Sound.settle {a b : List DiskOperation} {op : DiskOperation} (h : Sound size v) (hf : v.flight = a ++ op :: b)
    (data : List U8) (ok : Bool) : Sound size (v.settle op (a ++ b) data ok) := by
  have hmem : op ∈ v.flight := hf ▸ List.mem_append_right a List.mem_cons_self
  have hp := h.operating.pending (List.ne_nil_of_mem hmem)
  obtain ⟨s, hdone, hnone, hb⟩ := h.booted.complete hp data ok
  obtain ⟨hs, rfl, rfl⟩ := flight_alone h.current hf
  have hreq := h.operating.request op hmem
  have hc : Turns v.running v.generation [op.generation] v.microtasks v.yielded := by
    have hc := h.current
    unfold Current busy at hc
    rwa [hs, hf] at hc
  unfold RV64.settle
  rw [hdone]
  simp only [if_true, List.append_nil]
  exact {
    booted := hb
    current := by
      change Turns v.running v.generation (v.slicing.toList ++ []) _ v.yielded
      rw [hs]
      have ht := hc.settle op.id true ((v.waiting.filter fun w => w.1 == op.id).map Prod.snd)
      rw [List.map_map] at ht
      exact ht
    operating := ⟨fun _ h => absurd h List.not_mem_nil, fun _ h => absurd h List.not_mem_nil,
      fun _ h => absurd h List.not_mem_nil, fun _ h => absurd h List.not_mem_nil, fun h => absurd rfl h, fun e he => by
        rcases List.mem_append.1 he with he | he
        · exact h.operating.past e he
        · rw [List.mem_singleton.1 he]
          exact h.operating.begun op hmem⟩
    recorded := {
      exact := ⟨h.recorded.exact.once, fun c hc => by
        rcases List.mem_append.1 hc with hc | hc
        · exact h.recorded.exact.own c hc
        · rw [List.mem_singleton.1 hc]
          exact hreq, by
        rw [List.map_append]
        refine List.nodup_append'.2 ⟨h.recorded.exact.completedOnce, List.nodup_singleton _,
          List.disjoint_singleton.2 fun hm => ?_⟩
        obtain ⟨c, hcm, he⟩ := List.mem_map.1 hm
        exact h.recorded.uncompleted hp c hcm he⟩
      serviced := h.recorded.serviced
      completed := fun c hc => by
        rcases List.mem_append.1 hc with hc | hc
        · exact h.recorded.completed c hc
        · rw [List.mem_singleton.1 hc]
      unserviced := fun hp' => by
        change s.pending.isSome at hp'
        rw [hnone] at hp'
        cases hp'
      uncompleted := fun hp' => by
        change s.pending.isSome at hp'
        rw [hnone] at hp'
        cases hp' } }

theorem Sound.clearOperation (h : Sound size v) (hf : v.flight = []) : Sound size { v with diskOperation := none } where
  booted := h.booted
  current := h.current
  operating := ⟨fun _ hop => absurd (hf ▸ hop) List.not_mem_nil, h.operating.unsettled, h.operating.begun, h.operating.request,
    h.operating.pending, h.operating.past⟩
  recorded := ⟨⟨h.recorded.exact.once, h.recorded.exact.own, h.recorded.exact.completedOnce⟩, h.recorded.serviced,
    h.recorded.completed, h.recorded.unserviced, h.recorded.uncompleted⟩

theorem Sound.resumeTick {a b : List Microtask} {op g : ℕ} {ok : Bool} (h : Sound size v)
    (ht : v.microtasks = a ++ .tick op g ok :: b) : Sound size ({ v with microtasks := a ++ b }.resumeTick op g ok) := by
  have hc := h.current
  unfold Current at hc
  rw [ht] at hc
  obtain ⟨hb, hy⟩ := hc.resume
  have hd : Sound size { v with microtasks := a ++ b } := h.same rfl hc.drop
  have hgo : ∀ w : RV64, Sound size w → w.Current → Turns w.running w.generation w.busy w.microtasks (w.yielded ++ [g]) →
      Sound size (if !ok then { w with running := false }
        else if !w.running || g ≠ w.generation then w else { w with yielded := w.yielded ++ [g] }) := by
    intro w hw hcw hyw
    split_ifs
    · exact hw.same rfl hcw.off
    · exact hw
    · exact hw.same rfl hyw
  unfold RV64.resumeTick
  dsimp only
  by_cases ho : v.diskOperation = some op
  · rw [if_pos ho]
    exact hgo _ (hd.clearOperation (slicing_of_busy hb).2) hc.drop hy
  · rw [if_neg ho]
    exact hgo _ hd hc.drop hy

/-! ## Runs -/

/-- **One step** of the host keeps disk operations in order. -/
theorem Sound.step {a : Action} (h : Sound size v) (ha : v.Awaits a) (hs : Step size v a v') : Sound size v' := by
  cases hs with
  | start hd => exact h.start fun hr => busy_of_quiet (ha hr).1 (ha hr).2
  | stop hd => exact h.halt
  | reset hd m => exact h.reset ha m
  | destroy => exact h.destroy
  | networkFailure => exact h.halt
  | @input m hs hm =>
    exact {
      booted := h.booted.memory hm
      current := h.current
      operating := ⟨h.operating.awaited, h.operating.unsettled, h.operating.begun, h.operating.request, h.operating.pending,
        h.operating.past⟩
      recorded := ⟨⟨h.recorded.exact.once, h.recorded.exact.own, h.recorded.exact.completedOnce⟩, h.recorded.serviced,
        h.recorded.completed, h.recorded.unserviced, h.recorded.uncompleted⟩ }
  | enter hs hm hy => exact h.enter hm hy
  | leave hs hd poweredOff => exact h.leave hs hd poweredOff
  | result hs hf data ok => exact h.settle hf data ok
  | @microtask a b t hs ht m =>
    cases t with
    | tick op g ok => exact h.resumeTick ht
    | method k => exact h.resume ht m

theorem sound_of_reach (h : Reach size Awaits v) : Sound size v := by
  induction h with
  | create m => exact sound_create size m
  | step _ ha hs ih => exact ih.step ha hs

/-- **Each request** has one disk operation at most, which completes that request and no other: in every run that starts and
resets machines with the disk quiet. -/
theorem host_disk_exact (size : U64) (v : RV64) (h : Reach size Awaits v) : v.ExactDisk := (sound_of_reach h).recorded.exact

/-! ## A second operation for one request -/

/-- A guest that sets up its queue and asks for a flush. -/
theorem flush_left : ∃ s, GuestSlice (fresh 0 VirtioDev.flushDma) s ∧ s.pending.isSome := by
  have hset : Relation.ReflTransGen GuestStep (fresh 0 VirtioDev.flushDma)
      (VirtioDev.queueDevice 0 2 RAM_BASE (RAM_BASE + 0x100) (RAM_BASE + 0x180), VirtioDev.flushDma) :=
    ((((((Relation.ReflTransGen.refl.tail (.write _ _ 0x030 0)).tail (.write _ _ 0x038 2)).tail (.write _ _ 0x080 _)).tail
      (.write _ _ 0x090 _)).tail (.write _ _ 0x0a0 _)).tail (.write _ _ 0x044 1))
  have hrun : ((VirtioDev.queueDevice 0 2 RAM_BASE (RAM_BASE + 0x100) (RAM_BASE + 0x180)).process 1 0 VirtioDev.flushDma).any
      fun s => s.1.pendingBlockRequest.isSome := by
    decide
  obtain ⟨⟨d, m⟩, hp, hs⟩ := (Option.any_eq_true _ _).1 hrun
  exact ⟨(d, m), .runs rfl (hset.tail (.process 1 0 hp)), hs⟩

/-- A tick whose slice leaves a request for the host. -/
theorem Reach.service {P : RV64 → Action → Prop} {a b : List ℕ} {g : ℕ} {s : GuestDisk} (h : Reach size P v)
    (hP : ∀ v, P v .enter ∧ P v .leave) (hs : v.slicing = none) (hm : v.microtasks = []) (hy : v.yielded = a ++ g :: b)
    (hr : v.running = true) (hg : g = v.generation) (hd : GuestSlice v.disk s) (hp : s.pending.isSome) :
    Reach size P ((sliced { v with yielded := a ++ b, slicing := some g } s).serviceDisk g) := by
  have hin := h.step (hP v).1 (.enter hs hm hy)
  have he : enter { v with yielded := a ++ b } g = { v with yielded := a ++ b, slicing := some g } := by
    unfold RV64.enter
    rw [if_neg (by simp [hr, hg])]
  rw [he] at hin
  have hout := hin.step (hP _).2 (@Step.leave size { v with yielded := a ++ b, slicing := some g } g s rfl hd (some false))
  unfold RV64.leave at hout
  dsimp only at hout
  rwa [if_pos hp] at hout

theorem host_disk_exact_flush : ∃ v, Reach 0 Awaits v ∧ v.serviced = [1] ∧ v.ExactDisk := by
  obtain ⟨s, hd, hp⟩ := flush_left
  have hquiet : (create 0 VirtioDev.flushDma).Awaits .start := fun _ => ⟨rfl, rfl⟩
  have hstart : Reach 0 Awaits (create 0 VirtioDev.flushDma).start := (Reach.create _).step hquiet (.start rfl)
  have hserve := hstart.service (a := []) (b := []) (fun _ => ⟨trivial, trivial⟩) rfl rfl rfl rfl rfl hd hp
  refine ⟨_, hserve, ?_, host_disk_exact 0 _ hserve⟩
  change [] ++ [if _ then _ else _] = [1]
  rw [hp]
  rfl

/-- A machine that is stopped and started while its disk operation is in flight issues another operation for the same request. -/
theorem restart_services_twice : ¬ ∀ (size : U64) (v : RV64), Reach size (fun _ _ => True) v → v.ExactDisk := by
  intro hall
  obtain ⟨s, hd, hp⟩ := flush_left
  have hP : ∀ _ : RV64, True ∧ True := fun _ => ⟨trivial, trivial⟩
  have hstart : Reach 0 (fun _ _ => True) (create 0 VirtioDev.flushDma).start := (Reach.create _).step trivial (.start rfl)
  have hserve := hstart.service (a := []) (b := []) hP rfl rfl rfl rfl rfl hd hp
  have hagain := (hserve.step trivial (.stop rfl)).step trivial (.start rfl)
  have htwice := hagain.service (a := []) (b := []) hP rfl rfl rfl rfl rfl (.waits hp (.refl s.2)) hp
  have hserviced := (hall 0 _ htwice).once
  change (([] ++ [_]) ++ [if s.pending.isNone && s.pending.isSome then _ else _]).Nodup at hserviced
  rw [hp, Bool.and_true, if_neg (by rw [Option.isNone_eq_false_iff.2 hp]; exact Bool.false_ne_true)] at hserviced
  exact (List.nodup_cons.1 hserviced).1 List.mem_cons_self

end RV64
end Lish
