import Lish.Prog.AnyOrder
import Lish.Jit.CompleteJit
/-!
# EntrySites — what lands at one pc

Traces, regions and page modules that land at a pc run there by priority: a page module above all, a long integer trace above a
region, a region above a short trace.  Whether the order of the landings shows in the end is decided at each pc apart.
-/
namespace Lish

/-- What a pc runs, and for whom; and the owner of the module that is live on its page. -/
structure Site where
  code : Option (Option (JitBlock × Option JitOwnerId))
  live : Option JitOwnerId
  deriving DecidableEq

/-- What a compile brings to a pc: a trace, an entry of a region, or the module of the page, with a member at the pc or without. -/
inductive Arrival
  | trace (owner : JitOwnerId) (block : JitBlock)
  | entry (owner : JitOwnerId) (block : JitBlock)
  | pageModule (owner : JitOwnerId) (block : Option JitBlock)
  | elsewhere
  deriving DecidableEq

def Arrival.owner? : Arrival → Option JitOwnerId
  | .trace o _ => some o
  | .entry o _ => some o
  | .pageModule o _ => some o
  | .elsewhere => none

namespace Site

/-- The cache entry. -/
def cached (s : Site) : Option (Option JitBlock) := s.code.map (Option.map Prod.fst)

def owner (s : Site) : Option JitOwnerId := s.code.join.bind Prod.snd

/-- The code is the live page module's. -/
def kept (s : Site) : Bool := s.live.isSome && decide (s.owner = s.live)

/-- The code is a trace that a region leaves in its place. -/
def long (keep : ℕ) (s : Site) : Bool := s.cached.join.any fun b => decide (b.n ≠ 0) && !b.fp && decide (keep ≤ b.n)

def put (s : Site) (o : JitOwnerId) (b : JitBlock) : Site := { s with code := some (some (b, some o)) }

/-- What a landing leaves at the pc. -/
def land (keep : ℕ) (s : Site) : Arrival → Site
  | .trace o b => if s.kept then s else if blockShouldReplaceRegion s.cached b keep then s.put o b else s
  | .entry o b => if s.kept then s else if s.long keep then s else s.put o b
  | .pageModule o (some b) => { s.put o b with live := some o }
  | .pageModule o none => ⟨if s.kept && decide (s.live ≠ some o) then none else s.code, some o⟩
  | .elsewhere => s

/-- The kind of what a pc runs, a region's entry or not, and the compile it is from. -/
def ran (s : Site) : Option (Option (Bool × Option JitOwnerId)) := s.code.map (Option.map fun e => (decide (e.1.n = 0), e.2))

/-- The last of a trace and a region's entry would stay: the trace is short and a long one is there, or it is long and empty. -/
def clash (keep : ℕ) (s : Site) (b : JitBlock) : Bool := if !b.fp && decide (keep ≤ b.n) then decide (b.n = 0) else s.long keep

variable {keep : ℕ} {s : Site} {o o' : JitOwnerId} {b b' : JitBlock}

theorem kept_iff : s.kept = true ↔ ∃ q, s.live = some q ∧ s.owner = some q := by
  unfold kept
  rw [Bool.and_eq_true, decide_eq_true_eq, Option.isSome_iff_exists]
  constructor
  · rintro ⟨⟨q, hq⟩, ho⟩
    exact ⟨q, hq, ho.trans hq⟩
  · rintro ⟨q, hq, ho⟩
    exact ⟨⟨q, hq⟩, ho.trans hq.symm⟩

@[simp] theorem put_live : (s.put o b).live = s.live := rfl

@[simp] theorem put_owner : (s.put o b).owner = some o := rfl

@[simp] theorem put_put : (s.put o b).put o' b' = s.put o' b' := rfl

theorem put_kept (h : s.live ≠ some o) : (s.put o b).kept = false := by
  by_contra hk
  obtain ⟨q, hq, ho⟩ := kept_iff.1 (Bool.eq_true_of_not_eq_false hk)
  exact h (hq.trans ho.symm)

theorem put_long : (s.put o b).long keep = (decide (b.n ≠ 0) && !b.fp && decide (keep ≤ b.n)) := rfl

theorem replace_put : blockShouldReplaceRegion (s.put o b).cached b' keep =
    (!decide (b.n = 0) || (!b'.fp && decide (keep ≤ b'.n))) := rfl

end Site

/-- What lands at a pc: one trace, one region and one page module at most, each of a compile of its own. -/
structure Apart (l : List Arrival) : Prop where
  trace : ∀ o b o' b', .trace o b ∈ l → .trace o' b' ∈ l → o = o' ∧ b = b'
  entry : ∀ o b o' b', .entry o b ∈ l → .entry o' b' ∈ l → o = o' ∧ b = b'
  pageModule : ∀ o b o' b', .pageModule o b ∈ l → .pageModule o' b' ∈ l → o = o' ∧ b = b'
  traceEntry : ∀ o b o' b', .trace o b ∈ l → .entry o' b' ∈ l → o ≠ o'
  tracePage : ∀ o b o' b', .trace o b ∈ l → .pageModule o' b' ∈ l → o ≠ o'
  entryPage : ∀ o b o' b', .entry o b ∈ l → .pageModule o' b' ∈ l → o ≠ o'
  region : ∀ o b, .entry o b ∈ l → b.n = 0

theorem Apart.perm {l l' : List Arrival} (h : Apart l) (hp : l.Perm l') : Apart l' where
  trace o b o' b' ha hb := h.trace o b o' b' (hp.mem_iff.2 ha) (hp.mem_iff.2 hb)
  entry o b o' b' ha hb := h.entry o b o' b' (hp.mem_iff.2 ha) (hp.mem_iff.2 hb)
  pageModule o b o' b' ha hb := h.pageModule o b o' b' (hp.mem_iff.2 ha) (hp.mem_iff.2 hb)
  traceEntry o b o' b' ha hb := h.traceEntry o b o' b' (hp.mem_iff.2 ha) (hp.mem_iff.2 hb)
  tracePage o b o' b' ha hb := h.tracePage o b o' b' (hp.mem_iff.2 ha) (hp.mem_iff.2 hb)
  entryPage o b o' b' ha hb := h.entryPage o b o' b' (hp.mem_iff.2 ha) (hp.mem_iff.2 hb)
  region o b ha := h.region o b (hp.mem_iff.2 ha)

namespace Site

variable {keep : ℕ} {s : Site} {l : List Arrival} {a a' : Arrival} {o o' : JitOwnerId} {b b' : JitBlock}

/-- Nothing of what is to land is there yet. -/
def Before (l : List Arrival) (s : Site) : Prop := ∀ a ∈ l, ∀ o, a.owner? = some o → s.live ≠ some o ∧ s.owner ≠ some o

/-- **When the order does not show**: no trace or region lands at a pc that a new module of its page gives up; and where a trace and a
region meet, and no page module has the pc, they do not clash. -/
structure Settles (keep : ℕ) (l : List Arrival) (s : Site) : Prop where
  givenUp : s.kept = true → ∀ o, .pageModule o none ∈ l → ∀ o' b, .trace o' b ∉ l ∧ .entry o' b ∉ l
  noClash : s.kept = false →
    (∀ o b, .pageModule o (some b) ∉ l) → ∀ o b o' b', .trace o b ∈ l → .entry o' b' ∈ l → s.clash keep b = false

theorem land_trace_kept (hk : s.kept = true) : s.land keep (.trace o b) = s := if_pos hk

theorem land_entry_kept (hk : s.kept = true) : s.land keep (.entry o b) = s := if_pos hk

theorem land_trace_free (hk : s.kept = false) :
    s.land keep (.trace o b) = if blockShouldReplaceRegion s.cached b keep then s.put o b else s := by simp [land, hk]

theorem land_entry_free (hk : s.kept = false) : s.land keep (.entry o b) = if s.long keep then s else s.put o b := by simp
    [land, hk]

theorem land_page_free (hk : s.kept = false) : s.land keep (.pageModule o none) = { s with live := some o } := by simp [land, hk]

theorem land_page_kept (hk : s.kept = true) (hl : s.live ≠ some o) : s.land keep (.pageModule o none) = ⟨none, some o⟩ := by
  simp [land, hk, hl]

/-! ## A pc that a page module has -/

/-- The module keeps a pc that it has taken. -/
theorem land_member (ha : Apart l) (hm : .pageModule o (some b) ∈ l) (hin : a ∈ l) (hs : s = ⟨some (some (b, some o)), some o⟩) :
    s.land keep a = s := by
  have hk : s.kept = true := by
    rw [hs]
    exact kept_iff.2 ⟨o, rfl, rfl⟩
  cases a with
  | trace o' b' => exact land_trace_kept hk
  | entry o' b' => exact land_entry_kept hk
  | pageModule o' b' =>
    obtain ⟨rfl, rfl⟩ := ha.pageModule _ _ _ _ hin hm
    rw [hs]
    rfl
  | elsewhere => rfl

theorem foldl_member (ha : Apart l) (hm : .pageModule o (some b) ∈ l) (s : Site) : l.foldl (land keep) s =
    ⟨some (some (b, some o)), some o⟩ := by
  obtain ⟨before, after, rfl⟩ := List.append_of_mem hm
  rw [List.foldl_append, List.foldl_cons]
  exact AnyOrder.foldl_still fun a hin => land_member ha hm (by simp [hin]) rfl

/-! ## A pc that no page module has -/

/-- What every landing keeps, at a pc that no page module has. -/
structure Steady (keep : ℕ) (l : List Arrival) (s : Site) : Prop where
  trace : ∀ o b, .trace o b ∈ l → s.live ≠ some o
  entry : ∀ o b, .entry o b ∈ l → s.live ≠ some o
  page : ∀ o b, .pageModule o b ∈ l → b = none ∧ s.owner ≠ some o
  givenUp : s.kept = true → ∀ o b, .pageModule o b ∈ l → ∀ o' b', .trace o' b' ∉ l ∧ .entry o' b' ∉ l
  noClash : s.kept = false → ∀ o b o' b', .trace o b ∈ l → .entry o' b' ∈ l → s.clash keep b = false

/-- Code that comes to a pc where nothing is kept. -/
theorem Steady.put (h : Steady keep l s) (hlive : s.live ≠ some o) (hpage : ∀ o' b', .pageModule o' b' ∈ l → o ≠ o')
    (hclash : ∀ o' b' o'' b'', .trace o' b' ∈ l → .entry o'' b'' ∈ l → (s.put o b).clash keep b' = false) : Steady keep l
    (s.put o b) where
  trace := h.trace
  entry := h.entry
  page o' b' hin := ⟨(h.page o' b' hin).1, fun he => hpage o' b' hin (Option.some.inj he)⟩
  givenUp hk := by
    rw [put_kept hlive] at hk
    cases hk
  noClash _ := hclash

/-- **Every landing** keeps the pc steady. -/
theorem Steady.land (ha : Apart l) (h : Steady keep l s) (hin : a ∈ l) : Steady keep l (s.land keep a) := by
  cases a with
  | trace o b =>
    cases hk : s.kept with
    | true => rwa [land_trace_kept hk]
    | false =>
      rw [land_trace_free hk]
      split
      · refine h.put (h.trace o b hin) (fun o' b' => ha.tracePage o b o' b' hin) fun o' b' o'' b'' ht he => ?_
        obtain ⟨rfl, rfl⟩ := ha.trace _ _ _ _ ht hin
        have hno := h.noClash hk _ _ _ _ ht he
        unfold clash at hno ⊢
        split at hno
        · rename_i htakes
          rw [if_pos htakes]
          exact hno
        · rename_i htakes
          rw [if_neg htakes, put_long, Bool.and_assoc]
          rw [Bool.eq_false_of_not_eq_true htakes, Bool.and_false]
      · exact h
  | entry o b =>
    cases hk : s.kept with
    | true => rwa [land_entry_kept hk]
    | false =>
      rw [land_entry_free hk]
      split
      · exact h
      · refine h.put (h.entry o b hin) (fun o' b' => ha.entryPage o b o' b' hin) fun o' b' o'' b'' ht he => ?_
        have hno := h.noClash hk _ _ _ _ ht he
        unfold clash at hno ⊢
        split at hno
        · rename_i htakes
          rw [if_pos htakes]
          exact hno
        · rename_i htakes
          rw [if_neg htakes, put_long, ha.region o b hin]
          rfl
  | pageModule o b =>
    obtain ⟨rfl, hown⟩ := h.page o b hin
    have hlive : ∀ q, s.live = some q → s.owner = some q → q ≠ o := fun q _ ho he => hown (by rw [ho, he])
    cases hk : s.kept with
    | true =>
      obtain ⟨q, hq, ho⟩ := kept_iff.1 hk
      have hnone := h.givenUp hk o none hin
      rw [land_page_kept hk (by rw [hq]; exact fun he => hlive q hq ho (Option.some.inj he))]
      exact ⟨fun o' b' ht => absurd ht (hnone o' b').1, fun o' b' he => absurd he (hnone o' b').2,
        fun o' b' hp => ⟨(h.page o' b' hp).1, fun he => by cases he⟩, fun he => (by cases he),
        fun _ o' b' _ _ ht => absurd ht (hnone o' b').1⟩
    | false =>
      rw [land_page_free hk]
      refine ⟨fun o' b' ht he => ha.tracePage _ _ _ _ ht hin (Option.some.inj he).symm,
        fun o' b' ht he => ha.entryPage _ _ _ _ ht hin (Option.some.inj he).symm, h.page, fun hn => ?_, fun _ => h.noClash hk⟩
      obtain ⟨q, hq, ho⟩ := kept_iff.1 hn
      cases hq
      exact absurd ho hown
  | elsewhere => exact h

/-- A trace runs in the place of a trace. -/
theorem replace_of_long (h : s.long keep = true) : blockShouldReplaceRegion s.cached b keep = true := by
  unfold long at h
  unfold blockShouldReplaceRegion
  cases hj : s.cached.join with
  | none => rfl
  | some x =>
    rw [hj] at h
    simp only [Option.any_some, Bool.and_eq_true, decide_eq_true_eq] at h ⊢
    rw [decide_eq_false h.1.1]
    rfl

/-- A trace and a region that do not clash. -/
theorem land_trace_entry (hb : b'.n = 0) (ht : s.live ≠ some o) (he : s.live ≠ some o')
    (hc : s.kept = false → s.clash keep b = false) :
    (s.land keep (.trace o b)).land keep (.entry o' b') = (s.land keep (.entry o' b')).land keep (.trace o b) := by
  cases hk : s.kept with
  | true => rw [land_trace_kept hk, land_entry_kept hk, land_trace_kept hk]
  | false =>
    have hc := hc hk
    rw [land_trace_free hk, land_entry_free hk]
    unfold clash at hc
    split at hc
    · -- a long trace, that a region leaves in its place
      rename_i htakes
      have hlong : (s.put o b).long keep = true := by
        rw [put_long, Bool.and_assoc, htakes, Bool.and_true, decide_eq_true (of_decide_eq_false hc)]
      have hput : blockShouldReplaceRegion s.cached b keep = true := by
        unfold blockShouldReplaceRegion
        rw [htakes, Bool.or_true]
      have hput' : blockShouldReplaceRegion (s.put o' b').cached b keep = true := by
        rw [replace_put, htakes, Bool.or_true]
      rw [if_pos hput, land_entry_free (put_kept ht), if_pos hlong]
      split
      · rw [land_trace_free hk, if_pos hput]
      · rw [land_trace_free (put_kept he), if_pos hput', put_put]
    · -- a short trace, where no long one is
      rename_i htakes
      have hshort : (!b.fp && decide (keep ≤ b.n)) = false := Bool.eq_false_of_not_eq_true htakes
      have hlong : (s.put o b).long keep = false := by
        rw [put_long, Bool.and_assoc, hshort, Bool.and_false]
      have hput' : blockShouldReplaceRegion (s.put o' b').cached b keep = false := by
        rw [replace_put, hshort, hb]
        rfl
      rw [hc, if_neg Bool.false_ne_true, land_trace_free (put_kept he), hput', if_neg Bool.false_ne_true]
      split
      · rw [land_entry_free (put_kept ht), hlong, if_neg Bool.false_ne_true, put_put]
      · rw [land_entry_free hk, hc, if_neg Bool.false_ne_true]

/-- A module of the page does not have what it did not bring. -/
theorem live_free (hp : s.owner ≠ some o) : ({ s with live := some o } : Site).kept = false := by
  by_contra hn
  obtain ⟨q, hq, ho⟩ := kept_iff.1 (Bool.eq_true_of_not_eq_false hn)
  cases hq
  exact hp ho

/-- A trace or a region lands before or after a module of the page that has no member at the pc. -/
theorem land_trace_page (hk : s.kept = false) (ht : s.live ≠ some o) (hp : s.owner ≠ some o') :
    (s.land keep (.trace o b)).land keep (.pageModule o' none) = (s.land keep (.pageModule o' none)).land keep (.trace o b) := by
  rw [land_page_free hk, land_trace_free hk, land_trace_free (live_free hp)]
  split
  · rename_i hr
    rw [land_page_free (put_kept ht)]
    exact (if_pos hr).symm
  · rename_i hr
    rw [land_page_free hk]
    exact (if_neg hr).symm

theorem land_entry_page (hk : s.kept = false) (ht : s.live ≠ some o) (hp : s.owner ≠ some o') :
    (s.land keep (.entry o b)).land keep (.pageModule o' none) = (s.land keep (.pageModule o' none)).land keep (.entry o b) := by
  rw [land_page_free hk, land_entry_free hk, land_entry_free (live_free hp)]
  split
  · rename_i hr
    rw [land_page_free hk]
    exact (if_pos hr).symm
  · rename_i hr
    rw [land_page_free (put_kept ht)]
    exact (if_neg hr).symm

/-- **Two landings** in either order, at a steady pc. -/
theorem Steady.commute (ha : Apart l) (h : Steady keep l s) (hin : a ∈ l) (hin' : a' ∈ l) :
    (s.land keep a).land keep a' = (s.land keep a').land keep a := by
  have free (o b o' b') (hp : .pageModule o b ∈ l) (ht : .trace o' b' ∈ l ∨ .entry o' b' ∈ l) : s.kept = false := by
    by_contra hk
    have hno := h.givenUp (Bool.eq_true_of_not_eq_false hk) o b hp o' b'
    exact ht.elim hno.1 hno.2
  cases a with
  | elsewhere => rfl
  | trace o b =>
    cases a' with
    | elsewhere => rfl
    | trace o' b' =>
      obtain ⟨rfl, rfl⟩ := ha.trace _ _ _ _ hin hin'
      rfl
    | entry o' b' =>
      exact land_trace_entry (ha.region _ _ hin') (h.trace o b hin) (h.entry o' b' hin') fun hk => h.noClash hk _ _ _ _ hin hin'
    | pageModule o' b' =>
      obtain ⟨rfl, hp⟩ := h.page o' b' hin'
      exact land_trace_page (free _ _ _ _ hin' (.inl hin)) (h.trace o b hin) hp
  | entry o b =>
    cases a' with
    | elsewhere => rfl
    | trace o' b' =>
      exact (land_trace_entry (ha.region _ _ hin) (h.trace o' b' hin') (h.entry o b hin) fun hk => h.noClash hk _ _ _ _ hin' hin).symm
    | entry o' b' =>
      obtain ⟨rfl, rfl⟩ := ha.entry _ _ _ _ hin hin'
      rfl
    | pageModule o' b' =>
      obtain ⟨rfl, hp⟩ := h.page o' b' hin'
      exact land_entry_page (free _ _ _ _ hin' (.inr hin)) (h.entry o b hin) hp
  | pageModule o b =>
    obtain ⟨rfl, hp⟩ := h.page o b hin
    cases a' with
    | elsewhere => rfl
    | trace o' b' => exact (land_trace_page (free _ _ _ _ hin (.inl hin')) (h.trace o' b' hin') hp).symm
    | entry o' b' => exact (land_entry_page (free _ _ _ _ hin (.inr hin')) (h.entry o' b' hin') hp).symm
    | pageModule o' b' =>
      obtain ⟨rfl, rfl⟩ := ha.pageModule _ _ _ _ hin hin'
      rfl

/-- **Landings in any order** leave the same, where the pc settles. -/
theorem Settles.foldl_perm (ha : Apart l) (hb : Before l s) (h : Settles keep l s) {l' : List Arrival} (hp : l.Perm l') :
    l.foldl (land keep) s = l'.foldl (land keep) s := by
  by_cases hm : ∃ o b, .pageModule o (some b) ∈ l
  · obtain ⟨o, b, hm⟩ := hm
    rw [foldl_member ha hm, foldl_member (ha.perm hp) (hp.mem_iff.1 hm)]
  · have hno : ∀ o b, .pageModule o (some b) ∉ l := fun o b hin => hm ⟨o, b, hin⟩
    have hpage : ∀ o b, .pageModule o b ∈ l → b = none ∧ s.owner ≠ some o := fun o b hin => by
      cases b with
      | none => exact ⟨rfl, (hb _ hin o rfl).2⟩
      | some b => exact absurd hin (hno o b)
    have hsteady : Steady keep l s := ⟨fun o b hin => (hb _ hin o rfl).1, fun o b hin => (hb _ hin o rfl).1, hpage,
      fun hk o b hin => h.givenUp hk o (by rw [← (hpage o b hin).1]; exact hin), fun hk => h.noClash hk hno⟩
    exact AnyOrder.foldl_perm hp (fun a hin s hs => hs.land ha hin) (fun a hin a' hin' s hs => hs.commute ha hin hin') hsteady

/-! ## Where the order shows -/

/-- Where something lands, something is cached. -/
theorem land_isSome (h : s.code.isSome) (hn : ∀ o b, a ≠ .pageModule o b) : (s.land keep a).code.isSome := by
  cases a with
  | trace o b =>
    simp only [land]
    split
    · exact h
    · split
      · rfl
      · exact h
  | entry o b =>
    simp only [land]
    split
    · exact h
    · split
      · exact h
      · rfl
  | pageModule o b => exact absurd rfl (hn o b)
  | elsewhere => exact h

theorem land_none_isSome (h : s.code = none) (ho : (∃ o b, a = .trace o b) ∨ ∃ o b, a = .entry o b) :
    (s.land keep a).code.isSome := by
  have hk : s.kept = false := by
    by_contra hn
    obtain ⟨q, -, hq⟩ := kept_iff.1 (Bool.eq_true_of_not_eq_false hn)
    unfold owner at hq
    rw [h] at hq
    cases hq
  rcases ho with ⟨o, b, rfl⟩ | ⟨o, b, rfl⟩
  · have hr : blockShouldReplaceRegion s.cached b keep = true := by
      unfold cached
      rw [h]
      rfl
    rw [land_trace_free hk, if_pos hr]
    rfl
  · have hl : s.long keep = false := by
      unfold long cached
      rw [h]
      rfl
    rw [land_entry_free hk, hl]
    rfl

/-- What lands at a pc of its own stays there while only modules without the pc follow. -/
theorem foldl_pages (hk : s.kept = false) (hl : ∀ a ∈ l, a = .elsewhere ∨ ∃ o, a = .pageModule o none ∧ s.owner ≠ some o) :
    (l.foldl (land keep) s).ran = s.ran := by
  have hinv : (l.foldl (land keep) s).code = s.code ∧ (l.foldl (land keep) s).kept = false := by
    refine List.foldlRecOn l (land keep) (motive := fun t => t.code = s.code ∧ t.kept = false) ⟨rfl, hk⟩ fun t ht a hin => ?_
    rcases hl a hin with rfl | ⟨o, rfl, ho⟩
    · exact ht
    · rw [land_page_free ht.2]
      refine ⟨ht.1, live_free ?_⟩
      unfold owner at ho ⊢
      rwa [ht.1]
  unfold ran
  rw [hinv.1]

/-- An arrival and the others. -/
theorem exists_perm (hn : (l.filterMap Arrival.owner?).Nodup) (hin : a ∈ l) (ho : a.owner? = some o) :
    ∃ r, l.Perm (a :: r) ∧ (r.filterMap Arrival.owner?).Nodup ∧ ∀ a' ∈ r, a'.owner? ≠ some o := by
  have hp := List.perm_cons_erase hin
  have hnd := (hp.filterMap Arrival.owner?).nodup_iff.1 hn
  rw [List.filterMap_cons_some ho, List.nodup_cons] at hnd
  exact ⟨_, hp, hnd.2, fun a' ha' he => hnd.1 (List.mem_filterMap.2 ⟨a', ha', he⟩)⟩

/-- A trace and a region that clash: the last one of them stays. -/
theorem land_clash (b' : JitBlock) (hk : s.kept = false) (ht : s.live ≠ some o) (he : s.live ≠ some o')
    (hc : s.clash keep b = true) :
    (s.land keep (.trace o b)).land keep (.entry o' b') = s.put o' b' ∧ (s.land keep (.entry o' b')).land keep
    (.trace o b) = s.put o b := by
  unfold clash at hc
  split at hc
  · rename_i htakes
    have hlong : (s.put o b).long keep = false := by
      rw [put_long, decide_eq_false (not_not.2 (of_decide_eq_true hc))]
      rfl
    have hput : blockShouldReplaceRegion s.cached b keep = true := by
      unfold blockShouldReplaceRegion
      rw [htakes, Bool.or_true]
    have hput' : blockShouldReplaceRegion (s.put o' b').cached b keep = true := by
      rw [replace_put, htakes, Bool.or_true]
    refine ⟨?_, ?_⟩
    · rw [land_trace_free hk, if_pos hput, land_entry_free (put_kept ht), hlong, if_neg Bool.false_ne_true, put_put]
    · rw [land_entry_free hk]
      split
      · rw [land_trace_free hk, if_pos hput]
      · rw [land_trace_free (put_kept he), if_pos hput', put_put]
  · rename_i htakes
    have hlong : (s.put o b).long keep = false := by
      rw [put_long, Bool.and_assoc, Bool.eq_false_of_not_eq_true htakes, Bool.and_false]
    have hput := replace_of_long (b := b) hc
    refine ⟨?_, ?_⟩
    · rw [land_trace_free hk, if_pos hput, land_entry_free (put_kept ht), hlong, if_neg Bool.false_ne_true, put_put]
    · rw [land_entry_free hk, if_pos hc, land_trace_free hk, if_pos hput]

/-- **A pc settles if the order does not show.** -/
theorem Settles.of_orders (ha : Apart l) (hb : Before l s) (hn : (l.filterMap Arrival.owner?).Nodup)
    (h : ∀ l', l.Perm l' → ∀ l'', l.Perm l'' → (l'.foldl (land keep) s).ran = (l''.foldl (land keep) s).ran) :
    Settles keep l s where
  givenUp hk o hp := by
    obtain ⟨r, hperm, -, hr⟩ := exists_perm hn hp rfl
    have hnone : ∀ a ∈ r, ∀ o' b', a ≠ .pageModule o' b' := fun a ha' o' b' he => by
      obtain ⟨rfl, -⟩ := ha.pageModule _ _ _ _ (hperm.mem_iff.2 (List.mem_cons_of_mem _ (he ▸ ha'))) hp
      exact hr a ha' (by rw [he]; rfl)
    have hl : s.live ≠ some o := (hb _ hp o rfl).1
    -- the module last, after nothing has replaced what it gives up
    have hlast : ((r ++ [Arrival.pageModule o none]).foldl (land keep) s).ran = none := by
      have hstill : r.foldl (land keep) s = s := AnyOrder.foldl_still fun a ha' => by
        cases a with
        | trace o' b' => exact land_trace_kept hk
        | entry o' b' => exact land_entry_kept hk
        | pageModule o' b' => exact absurd rfl (hnone _ ha' o' b')
        | elsewhere => rfl
      rw [List.foldl_append, hstill]
      change (s.land keep (.pageModule o none)).ran = none
      rw [land_page_kept hk hl]
      rfl
    have hboth := h _ (hperm.trans (List.perm_append_singleton _ r).symm) _ hperm
    rw [hlast, List.foldl_cons, land_page_kept hk hl] at hboth
    have hfirst (a : Arrival) (hin : a ∈ l) (ho : (∃ o b, a = .trace o b) ∨ ∃ o b, a = .entry o b) : False := by
      have hina : a ∈ r := by
        rcases List.mem_cons.1 (hperm.mem_iff.1 hin) with he | he
        · rcases ho with ⟨o', b', rfl⟩ | ⟨o', b', rfl⟩ <;> cases he
        · exact he
      obtain ⟨before, after, rfl⟩ := List.append_of_mem hina
      rw [List.foldl_append, List.foldl_cons] at hboth
      have hsome : ((before.foldl (land keep) ⟨none, some o⟩).land keep a).code.isSome := by
        cases hcode : (before.foldl (land keep) ⟨none, some o⟩).code with
        | none => exact land_none_isSome hcode ho
        | some e => exact land_isSome (by rw [hcode]; rfl) (hnone a hina)
      have hend : (after.foldl (land keep) ((before.foldl (land keep) ⟨none, some o⟩).land keep a)).code.isSome :=
        List.foldlRecOn after (land keep) (motive := fun t => t.code.isSome = true) hsome fun t ht a' ha' =>
          land_isSome ht (hnone a' (by simp [ha']))
      unfold ran at hboth
      rw [eq_comm, Option.map_eq_none_iff] at hboth
      rw [hboth] at hend
      cases hend
    exact fun o' b => ⟨fun ht => hfirst _ ht (.inl ⟨o', b, rfl⟩), fun he => hfirst _ he (.inr ⟨o', b, rfl⟩)⟩
  noClash hk hm o b o' b' ht he := by
    by_contra hc
    obtain ⟨r, hperm, hnr, hr⟩ := exists_perm hn ht rfl
    have her : .entry o' b' ∈ r := by
      rcases List.mem_cons.1 (hperm.mem_iff.1 he) with hne | hne
      · cases hne
      · exact hne
    obtain ⟨r', hperm', -, hr'⟩ := exists_perm hnr her rfl
    have hboth : l.Perm (.trace o b :: .entry o' b' :: r') := hperm.trans (hperm'.cons _)
    have hrest : ∀ q ∈ [o, o'], ∀ a ∈ r', a = .elsewhere ∨ ∃ o'', a = .pageModule o'' none ∧ some q ≠ some o'' := by
      intro q hq a hin
      have hinl : a ∈ l := hboth.mem_iff.2 (by simp [hin])
      cases a with
      | trace o₁ b₁ =>
        obtain ⟨rfl, -⟩ := ha.trace _ _ _ _ hinl ht
        exact absurd rfl (hr _ (hperm'.mem_iff.2 (List.mem_cons_of_mem _ hin)))
      | entry o₁ b₁ =>
        obtain ⟨rfl, -⟩ := ha.entry _ _ _ _ hinl he
        exact absurd rfl (hr' _ hin)
      | pageModule o₁ b₁ =>
        cases b₁ with
        | some b₁ => exact absurd hinl (hm o₁ b₁)
        | none =>
          refine .inr ⟨o₁, rfl, fun hq' => ?_⟩
          obtain rfl := Option.some.inj hq'
          rcases List.mem_cons.1 hq with hq | hq
          · exact ha.tracePage _ _ _ _ ht hinl hq.symm
          · exact ha.entryPage _ _ _ _ he hinl (List.mem_singleton.1 hq).symm
      | elsewhere => exact .inl rfl
    have hlt := (hb _ ht o rfl).1
    have hle := (hb _ he o' rfl).1
    obtain ⟨h1, h2⟩ := land_clash b' hk hlt hle (Bool.eq_true_of_not_eq_false hc)
    have hsame := h _ hboth _ (hboth.trans (List.Perm.swap _ _ _))
    rw [List.foldl_cons, List.foldl_cons, List.foldl_cons, List.foldl_cons, h1, h2,
      foldl_pages (put_kept hle) (hrest o' (by simp)), foldl_pages (put_kept hlt) (hrest o (by simp))] at hsame
    have howner := congrArg (fun r => r.join.map Prod.snd) hsame
    exact ha.traceEntry _ _ _ _ ht he (Option.some.inj (Option.some.inj howner)).symm

/-- **A pc settles** exactly if what lands there leaves the same in every order. -/
theorem settles_iff (ha : Apart l) (hb : Before l s) (hn : (l.filterMap Arrival.owner?).Nodup) :
    Settles keep l s ↔ ∀ l', l.Perm l' → ∀ l'', l.Perm l'' → (l'.foldl (land keep) s).ran = (l''.foldl (land keep) s).ran := by
  refine ⟨fun h l' hp l'' hp' => ?_, Settles.of_orders ha hb hn⟩
  rw [← h.foldl_perm ha hb hp, h.foldl_perm ha hb hp']

end Site
end Lish
