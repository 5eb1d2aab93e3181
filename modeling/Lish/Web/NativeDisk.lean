import Lish.Core.Arch
import Lish.Prog.OrderedMap
/-!
# NativeDisk — the browser's client of the disk service

The client runs one operation at a time, in the order of the calls.  A read takes its bytes from cached lines and fetches
the lines that are missing; a write goes to the service and drops the lines that it touches, whatever becomes of it.
-/
namespace Lish

structure NativeDiskConfig where
  size : ℕ
  cacheLineSize : ℕ
  maximumCacheLines : ℕ
  maximumRequestBytes : ℕ
  line_pos : 0 < cacheLineSize
  lines_pos : 0 < maximumCacheLines

/-- The checks of `create` and of the constructor. -/
def NativeDiskConfig.create (size cacheLineSize maximumCacheBytes maximumRequestBytes : ℕ) : Option NativeDiskConfig :=
  if h : 0 < cacheLineSize ∧ cacheLineSize ≤ maximumCacheBytes then
    if 0 < maximumRequestBytes ∧ 0 < size ∧ size % 512 = 0 then
      some ⟨size, cacheLineSize, maximumCacheBytes / cacheLineSize, maximumRequestBytes, h.1, Nat.div_pos h.2 h.1⟩
    else none
  else none

/-- The bytes of an image in a range. -/
def imageSlice (image : ℕ → U8) (offset length : ℕ) : List U8 := (List.range length).map fun i => image (offset + i)

theorem length_imageSlice (image : ℕ → U8) (offset length : ℕ) : (imageSlice image offset length).length = length := by
  unfold imageSlice
  rw [List.length_map, List.length_range]

theorem getElem?_imageSlice (image : ℕ → U8) (offset length i : ℕ) :
    (imageSlice image offset length)[i]? = if i < length then some (image (offset + i)) else none := by
  unfold imageSlice
  rw [List.getElem?_map]
  split
  · rename_i h
    rw [List.getElem?_range h]
    rfl
  · rename_i h
    rw [List.getElem?_eq_none (by rw [List.length_range]; omega)]
    rfl

theorem imageSlice_append (image : ℕ → U8) (offset a b : ℕ) :
    imageSlice image offset a ++ imageSlice image (offset + a) b = imageSlice image offset (a + b) := by
  unfold imageSlice
  rw [List.range_add, List.map_append, List.map_map]
  refine congrArg (_ ++ ·) (List.map_congr_left fun i _ => ?_)
  rw [Function.comp_apply, Nat.add_assoc]

/-- A part of a range. -/
theorem imageSlice_part (image : ℕ → U8) (offset length start count : ℕ) (h : start + count ≤ length) :
    ((imageSlice image offset length).drop start).take count = imageSlice image (offset + start) count := by
  refine List.ext_getElem? fun i => ?_
  rw [List.getElem?_take, getElem?_imageSlice]
  split
  · rw [List.getElem?_drop, getElem?_imageSlice, if_pos (by omega), Nat.add_assoc]
  · rfl

/-- An image after a write. -/
def imageWrite (image : ℕ → U8) (offset : ℕ) (body : List U8) : ℕ → U8 := fun i =>
  if offset ≤ i ∧ i < offset + body.length then body.getD (i - offset) 0 else image i

/-- A write leaves the ranges that it does not touch. -/
theorem imageSlice_write {image : ℕ → U8} {offset start length : ℕ} {body : List U8}
    (h : start + length ≤ offset ∨ offset + body.length ≤ start) :
    imageSlice (imageWrite image offset body) start length = imageSlice image start length := by
  unfold imageSlice
  refine List.map_congr_left fun i hi => ?_
  rw [List.mem_range] at hi
  exact if_neg (by omega)

namespace NativeDisk

inductive Request where
  | read (offset length : ℕ)
  | write (offset : ℕ) (body : List U8)
  | flush

/-- The operation that runs: a read between two lines or while a line is fetched, a write or a flush while its request is
under way.  What is behind a request is known to the service alone: what it has answered, or whether it has acted. -/
inductive Running where
  | reading (offset length : ℕ) (result : List U8)
  | filling (offset length : ℕ) (result : List U8) (lineOffset : ℕ) (answer : Option (List U8))
  | writing (offset : ℕ) (body : List U8) (applied : Bool)
  | flushing (applied : Bool)

def Request.start : Request → Running
  | read offset length => .reading offset length []
  | write offset body => .writing offset body false
  | flush => .flushing false

def Running.request : Running → Request
  | reading offset length _ => .read offset length
  | filling offset length _ _ _ => .read offset length
  | writing offset body _ => .write offset body
  | flushing _ => .flush

/-- How the promise of a call settles. -/
inductive Settled where
  | resolved (data : List U8)
  | rejected

/-- An operation that is over: its request, whether the service has acted on it, and what its caller got. -/
structure Done where
  request : Request
  applied : Bool
  settled : Settled

/-- The client, and with it the service's image, all calls so far and all operations that are over. -/
structure World where
  tail : List Request
  running : Option Running
  cache : OrderedMap ℕ (List U8)
  closed : Bool
  disk : ℕ → U8
  issued : List Request
  history : List Done

/-- A new client of an image. -/
def World.start (image : ℕ → U8) : World := ⟨[], none, .empty, false, image, [], []⟩

variable (cfg : NativeDiskConfig)

/-- The bytes of a line; the last one may be short. -/
def lineLength (lineOffset : ℕ) : ℕ := min cfg.cacheLineSize (cfg.size - lineOffset)

/-- `#validateRange`. -/
def validRange (offset length : ℕ) : Bool := 0 < length ∧ length ≤ cfg.maximumRequestBytes ∧ offset + length ≤ cfg.size

def Request.valid : Request → Bool
  | read offset length => validRange cfg offset length
  | write offset body => validRange cfg offset body.length
  | flush => true

inductive Event where
  /-- A call of `read`, `write` or `flush`. -/
  | call (request : Request)
  /-- The next operation in the queue begins. -/
  | begin
  /-- A read goes on with its next line. -/
  | next
  /-- The request under way reaches the service. -/
  | reach
  /-- The fetch settles. -/
  | settle (ok : Bool)
  | destroy

namespace World

/-- A call with a wrong range throws, and one to a closed client is rejected at once. -/
def call (w : World) (request : Request) : World :=
  if request.valid cfg = true ∧ w.closed = false then
    { w with tail := w.tail ++ [request], issued := w.issued ++ [request] }
  else w

def begin (w : World) : World :=
  match w.running, w.tail with
  | none, request :: tail => { w with running := some request.start, tail }
  | _, _ => w

def finish (w : World) (request : Request) (applied : Bool) (settled : Settled) : World :=
  { w with running := none, history := w.history ++ [⟨request, applied, settled⟩] }

/-- A read copies what it wants of a line. -/
def copyLine (offset length : ℕ) (result : List U8) (lineOffset : ℕ) (line : List U8) : Running :=
  let start := offset + result.length - lineOffset
  .reading offset length (result ++ (line.drop start).take (min (length - result.length) (line.length - start)))

def next (w : World) : World :=
  match w.running with
  | some (.reading offset length result) =>
    if result.length < length then
      let lineOffset := (offset + result.length) / cfg.cacheLineSize * cfg.cacheLineSize
      match w.cache.get? lineOffset with
      | some line => { w with
          cache := (w.cache.delete lineOffset).set lineOffset line
          running := some (copyLine offset length result lineOffset line) }
      | none => { w with running := some (.filling offset length result lineOffset none) }
    else w.finish (.read offset length) false (.resolved result)
  | _ => w

def reach (w : World) : World :=
  match w.running with
  | some (.filling offset length result lineOffset none) => { w with
      running := some (.filling offset length result lineOffset (some (imageSlice w.disk lineOffset (lineLength cfg lineOffset)))) }
  | some (.writing offset body false) => { w with
      disk := imageWrite w.disk offset body
      running := some (.writing offset body true) }
  | some (.flushing false) => { w with running := some (.flushing true) }
  | _ => w

/-- `#invalidate`. -/
def invalidate (w : World) (offset length : ℕ) : World :=
  { w with cache := w.cache.deleteIf fun lineOffset => lineOffset < offset + length ∧ offset < lineOffset + cfg.cacheLineSize }

/-- A fetch succeeds only with the service's answer; it may fail whatever the service has done. -/
def settle (w : World) (ok : Bool) : World :=
  match w.running with
  | some (.filling offset length result lineOffset answer) =>
    if ok then
      match answer with
      | none => w
      | some bytes =>
        if bytes.length = lineLength cfg lineOffset then { w with
          cache := (w.cache.set lineOffset bytes).trim cfg.maximumCacheLines
          running := some (copyLine offset length result lineOffset bytes) }
        else w.finish (.read offset length) false .rejected
    else w.finish (.read offset length) false .rejected
  | some (.writing offset body applied) =>
    if ok then if applied then (w.invalidate cfg offset body.length).finish (.write offset body) true (.resolved []) else w
    else (w.invalidate cfg offset body.length).finish (.write offset body) applied .rejected
  | some (.flushing applied) =>
    if ok then if applied then w.finish .flush true (.resolved []) else w else w.finish .flush applied .rejected
  | _ => w

def destroy (w : World) : World := { w with closed := true, cache := .empty }

/-- An event that cannot happen changes nothing. -/
def step (w : World) : Event → World
  | .call request => w.call cfg request
  | .begin => w.begin
  | .next => w.next cfg
  | .reach => w.reach cfg
  | .settle ok => w.settle cfg ok
  | .destroy => w.destroy

def run (w : World) (events : List Event) : World := events.foldl (step cfg) w

end World

/-! ## The order of the operations -/

/-- What an operation that is over has done to the image. -/
def Done.apply (image : ℕ → U8) (d : Done) : ℕ → U8 :=
  if d.applied then
    match d.request with
    | .write offset body => imageWrite image offset body
    | _ => image
  else image

/-- The image after some operations. -/
def imageAfter (image : ℕ → U8) (history : List Done) : ℕ → U8 := history.foldl Done.apply image

/-- What the running operation has done to the image so far. -/
def Running.apply (image : ℕ → U8) : Running → ℕ → U8
  | writing offset body true => imageWrite image offset body
  | _ => image

/-- **The client is transparent**: the operations that are over, the one that runs and those that wait are the calls, in
their order; the service holds what they have written in that order; a read that has been answered got the image's bytes
where it stands in the order; what a write reports as done has been done; and the cache is bounded. -/
structure Transparent (image : ℕ → U8) (w : World) : Prop where
  order : w.issued = w.history.map Done.request ++ (w.running.map Running.request).toList ++ w.tail
  disk : w.disk = (w.running.map (Running.apply (imageAfter image w.history))).getD (imageAfter image w.history)
  reads : ∀ (i offset length : ℕ) (applied : Bool) (data : List U8),
    w.history[i]? = some ⟨.read offset length, applied, .resolved data⟩ →
      data = imageSlice (imageAfter image (w.history.take i)) offset length
  writes : ∀ d ∈ w.history, ∀ offset body data, d.request = .write offset body → d.settled = .resolved data → d.applied = true
  bounded : w.cache.size ≤ cfg.maximumCacheLines

/-- The bytes that a running read holds are the image's. -/
def Running.Holds (image : ℕ → U8) : Running → Prop
  | reading offset length result =>
    offset + length ≤ cfg.size ∧ result.length ≤ length ∧ result = imageSlice image offset result.length
  | filling offset length result lineOffset answer =>
    offset + length ≤ cfg.size ∧ result.length < length ∧ result = imageSlice image offset result.length ∧
      lineOffset = (offset + result.length) / cfg.cacheLineSize * cfg.cacheLineSize ∧
      ∀ bytes, answer = some bytes → bytes = imageSlice image lineOffset (lineLength cfg lineOffset)
  | _ => True

/-- **The invariant**: beside transparency, cached lines are the image's from before the running operation. -/
structure Inv (image : ℕ → U8) (w : World) : Prop where
  transparent : Transparent cfg image w
  cached : ∀ lineOffset bytes, w.cache.get? lineOffset = some bytes →
    bytes = imageSlice (imageAfter image w.history) lineOffset (lineLength cfg lineOffset)
  holds : ∀ running, w.running = some running → running.Holds cfg (imageAfter image w.history)
  valid : ∀ request ∈ w.tail, request.valid cfg = true

variable {cfg} {image : ℕ → U8} {w : World}

theorem inv_start (image : ℕ → U8) : Inv cfg image (.start image) where
  transparent := {
    order := rfl
    disk := rfl
    reads := fun i _ _ _ _ h => by
      unfold World.start at h
      rw [List.getElem?_nil] at h
      cases h
    writes := fun _ hd => by cases hd
    bounded := Nat.zero_le _ }
  cached _ _ h := by cases h
  holds _ h := by cases h
  valid _ h := by cases h

theorem inv_call (h : Inv cfg image w) (request : Request) : Inv cfg image (w.call cfg request) := by
  unfold World.call
  split
  · rename_i hr
    refine ⟨⟨?_, h.transparent.disk, h.transparent.reads, h.transparent.writes, h.transparent.bounded⟩, h.cached, h.holds,
      fun r hm => ?_⟩
    · dsimp only
      rw [h.transparent.order, List.append_assoc]
    · rcases List.mem_append.1 hm with hm | hm
      · exact h.valid r hm
      · rw [List.mem_singleton.1 hm]
        exact hr.1
  · exact h

theorem start_request (request : Request) : request.start.request = request := by
  cases request <;> rfl

theorem inv_begin (h : Inv cfg image w) : Inv cfg image w.begin := by
  unfold World.begin
  cases hrun : w.running with
  | some running => exact h
  | none =>
    cases htail : w.tail with
    | nil => exact h
    | cons request tail =>
      have horder := h.transparent.order
      have hdisk := h.transparent.disk
      rw [hrun, htail] at horder
      rw [hrun] at hdisk
      refine ⟨⟨?_, ?_, h.transparent.reads, h.transparent.writes, h.transparent.bounded⟩, h.cached, fun running hs => ?_,
        fun r hm => h.valid r (htail ▸ List.mem_cons_of_mem request hm)⟩
      · dsimp only
        rw [horder, Option.map_none, Option.toList_none, List.append_nil, Option.map_some, Option.toList_some, start_request,
          List.append_assoc, List.singleton_append]
      · dsimp only
        rw [hdisk]
        cases request <;> rfl
      · cases hs
        have hv := h.valid request (htail ▸ List.mem_cons_self)
        cases request with
        | read offset length =>
          have hrange : offset + length ≤ cfg.size := by
            unfold Request.valid validRange at hv
            exact (of_decide_eq_true hv).2.2
          exact ⟨hrange, Nat.zero_le _, rfl⟩
        | write offset body => trivial
        | flush => trivial

/-- The running operation is over. -/
theorem inv_finish (h : Inv cfg image w) {running : Running} (hrun : w.running = some running) {applied : Bool}
    {settled : Settled} (hdisk : w.disk = (⟨running.request, applied, settled⟩ : Done).apply (imageAfter image w.history))
    (hcached : ∀ lineOffset bytes, w.cache.get? lineOffset = some bytes →
      imageSlice ((⟨running.request, applied, settled⟩ : Done).apply (imageAfter image w.history)) lineOffset
        (lineLength cfg lineOffset) = imageSlice (imageAfter image w.history) lineOffset (lineLength cfg lineOffset))
    (hread : ∀ offset length data, running.request = .read offset length → settled = .resolved data →
      data = imageSlice (imageAfter image w.history) offset length)
    (hwrite : ∀ offset body data, running.request = .write offset body → settled = .resolved data → applied = true) :
    Inv cfg image (w.finish running.request applied settled) := by
  have hafter : imageAfter image (w.history ++ [⟨running.request, applied, settled⟩]) =
      (⟨running.request, applied, settled⟩ : Done).apply (imageAfter image w.history) := by
    unfold imageAfter
    rw [List.foldl_append]
    rfl
  unfold World.finish
  refine ⟨⟨?_, ?_, fun i offset length a data hi => ?_, fun d hd offset body data hr hs => ?_, h.transparent.bounded⟩,
    fun lineOffset bytes hb => ?_, fun r hr => (by cases hr), h.valid⟩
  · dsimp only
    rw [h.transparent.order, hrun, List.map_append, Option.map_none, Option.toList_none, List.append_nil]
    rfl
  · dsimp only
    rw [hafter, hdisk]
    rfl
  · dsimp only at hi ⊢
    rcases Nat.lt_or_ge i w.history.length with hlt | hge
    · rw [List.getElem?_append_left hlt] at hi
      rw [List.take_append_of_le_length hlt.le]
      exact h.transparent.reads i offset length a data hi
    · rw [List.getElem?_append_right hge] at hi
      have hzero : i - w.history.length = 0 := by
        by_contra hn
        rw [List.getElem?_eq_none (by rw [List.length_singleton]; omega)] at hi
        cases hi
      rw [hzero] at hi
      have hd := Option.some.inj hi
      injection hd with hr _ hs
      rw [List.take_left' (by omega)]
      exact hread offset length data hr hs
  · rcases List.mem_append.1 hd with hd | hd
    · exact h.transparent.writes d hd offset body data hr hs
    · rw [List.mem_singleton.1 hd] at hr hs ⊢
      exact hwrite offset body data hr hs
  · dsimp only at hb ⊢
    rw [hafter, hcached lineOffset bytes hb]
    exact h.cached lineOffset bytes hb

/-- **A line is copied**: the bytes that the read holds go on with it. -/
theorem holds_copyLine {offset length lineOffset : ℕ} {result line : List U8} (hrange : offset + length ≤ cfg.size)
    (hlen : result.length < length) (hresult : result = imageSlice image offset result.length)
    (hoffset : lineOffset = (offset + result.length) / cfg.cacheLineSize * cfg.cacheLineSize)
    (hline : line = imageSlice image lineOffset (lineLength cfg lineOffset)) :
    (World.copyLine offset length result lineOffset line).Holds cfg image := by
  have hle : lineOffset ≤ offset + result.length := by
    rw [hoffset]
    exact Nat.div_mul_le_self _ _
  have hlinelen : line.length = lineLength cfg lineOffset := by
    rw [hline, length_imageSlice]
  unfold World.copyLine
  dsimp only
  have hstart : lineOffset + (offset + result.length - lineOffset) = offset + result.length := by omega
  have hpart : ∀ n, offset + result.length - lineOffset + n ≤ line.length ∨ n = 0 →
      (line.drop (offset + result.length - lineOffset)).take n = imageSlice image (offset + result.length) n := fun n hn => by
    rcases hn with hn | rfl
    · rw [hlinelen] at hn
      rw [hline, imageSlice_part _ _ _ _ _ hn, hstart]
    · rw [List.take_zero]
      rfl
  have hcopy := hpart (min (length - result.length) (line.length - (offset + result.length - lineOffset))) (by omega)
  rw [hcopy]
  refine ⟨hrange, ?_, ?_⟩
  · rw [List.length_append, length_imageSlice]
    omega
  · rw [List.length_append, length_imageSlice, ← imageSlice_append, ← hresult]

theorem inv_next (h : Inv cfg image w) : Inv cfg image (w.next cfg) := by
  unfold World.next
  split
  · rename_i offset length result hrun
    have hdisk := h.transparent.disk
    have horder := h.transparent.order
    rw [hrun] at hdisk horder
    obtain ⟨hrange, hle, hresult⟩ := h.holds _ hrun
    split
    · rename_i hlt
      dsimp only
      cases hc : w.cache.get? ((offset + result.length) / cfg.cacheLineSize * cfg.cacheLineSize) with
      | some line =>
        have hd : (w.cache.delete ((offset + result.length) / cfg.cacheLineSize * cfg.cacheLineSize)).get?
            ((offset + result.length) / cfg.cacheLineSize * cfg.cacheLineSize) = none := by
          rw [OrderedMap.get?_delete, if_pos rfl]
        refine ⟨⟨horder, hdisk, h.transparent.reads, h.transparent.writes, ?_⟩, fun k bytes hb => ?_, fun r hr => ?_, h.valid⟩
        · dsimp only
          rw [OrderedMap.size_set_new hd, OrderedMap.size_delete hc]
          exact h.transparent.bounded
        · dsimp only at hb
          rw [OrderedMap.get?_set] at hb
          split at hb
          · rename_i hk
            cases hb
            rw [hk]
            exact h.cached _ _ hc
          · rename_i hk
            rw [OrderedMap.get?_delete, if_neg hk] at hb
            exact h.cached k bytes hb
        · cases hr
          exact holds_copyLine hrange hlt hresult rfl (h.cached _ _ hc)
      | none =>
        refine ⟨⟨horder, hdisk, h.transparent.reads, h.transparent.writes, h.transparent.bounded⟩, h.cached, fun r hr => ?_,
          h.valid⟩
        cases hr
        exact ⟨hrange, hlt, hresult, rfl, fun bytes hb => by cases hb⟩
    · rename_i hge
      refine inv_finish h hrun ?_ (fun _ _ _ => rfl) (fun o l data hr hs => ?_) (fun o body data hr => by cases hr)
      · exact hdisk
      · cases hr
        cases hs
        have hfull : result.length = length := by omega
        rw [hfull] at hresult
        exact hresult
  · exact h

theorem inv_reach (h : Inv cfg image w) : Inv cfg image (w.reach cfg) := by
  unfold World.reach
  split
  · rename_i offset length result lineOffset hrun
    have hdisk := h.transparent.disk
    have horder := h.transparent.order
    rw [hrun] at hdisk horder
    obtain ⟨hrange, hlt, hresult, hoffset, -⟩ := h.holds _ hrun
    refine ⟨⟨horder, hdisk, h.transparent.reads, h.transparent.writes, h.transparent.bounded⟩, h.cached, fun r hr => ?_,
      h.valid⟩
    cases hr
    refine ⟨hrange, hlt, hresult, hoffset, fun bytes hb => ?_⟩
    cases hb
    rw [hdisk]
    rfl
  · rename_i offset body hrun
    have hdisk := h.transparent.disk
    have horder := h.transparent.order
    rw [hrun] at hdisk horder
    refine ⟨⟨horder, ?_, h.transparent.reads, h.transparent.writes, h.transparent.bounded⟩, h.cached, fun r hr => ?_, h.valid⟩
    · dsimp only
      rw [hdisk]
      rfl
    · cases hr
      trivial
  · rename_i hrun
    have hdisk := h.transparent.disk
    have horder := h.transparent.order
    rw [hrun] at hdisk horder
    refine ⟨⟨horder, hdisk, h.transparent.reads, h.transparent.writes, h.transparent.bounded⟩, h.cached, fun r hr => ?_, h.valid⟩
    cases hr
    trivial
  · exact h

/-- The lines that a write touches are dropped. -/
theorem inv_invalidate (h : Inv cfg image w) (offset length : ℕ) : Inv cfg image (w.invalidate cfg offset length) := by
  unfold World.invalidate
  refine ⟨⟨h.transparent.order, h.transparent.disk, h.transparent.reads, h.transparent.writes, ?_⟩, fun k bytes hb => ?_,
    h.holds, h.valid⟩
  · exact le_trans (OrderedMap.size_deleteIf _ _) h.transparent.bounded
  · exact h.cached k bytes (OrderedMap.get?_deleteIf.1 hb).1

/-- A write is over, whatever has become of it. -/
theorem inv_write (h : Inv cfg image w) {offset : ℕ} {body : List U8} {applied : Bool}
    (hrun : w.running = some (.writing offset body applied)) {settled : Settled}
    (hsettled : ∀ data, settled = .resolved data → applied = true) :
    Inv cfg image ((w.invalidate cfg offset body.length).finish (.write offset body) applied settled) := by
  have hdisk := h.transparent.disk
  rw [hrun] at hdisk
  have hrunning : (w.invalidate cfg offset body.length).running = some (.writing offset body applied) := hrun
  refine inv_finish (inv_invalidate h offset body.length) hrunning ?_ (fun k bytes hb => ?_) (fun o l data hr => by cases hr)
    (fun _ _ data _ hs => hsettled data hs)
  · refine Eq.trans hdisk ?_
    cases applied <;> rfl
  · have hk := (OrderedMap.get?_deleteIf.1 hb).2
    have hapart := of_decide_eq_false hk
    have hline : lineLength cfg k ≤ cfg.cacheLineSize := Nat.min_le_left _ _
    cases applied with
    | false => rfl
    | true => exact imageSlice_write (by omega)

theorem inv_settle (h : Inv cfg image w) (ok : Bool) : Inv cfg image (w.settle cfg ok) := by
  unfold World.settle
  split
  · rename_i offset length result lineOffset answer hrun
    have hdisk := h.transparent.disk
    have horder := h.transparent.order
    rw [hrun] at hdisk horder
    obtain ⟨hrange, hlt, hresult, hoffset, hanswer⟩ := h.holds _ hrun
    have hreject : Inv cfg image (w.finish (.read offset length) false .rejected) :=
      inv_finish h hrun hdisk (fun _ _ _ => rfl) (fun _ _ _ _ hs => by cases hs) (fun _ _ _ hr => by cases hr)
    split
    · cases hans : answer with
      | none => exact h
      | some bytes =>
        dsimp only
        split
        · have hbytes := hanswer bytes hans
          refine ⟨⟨horder, hdisk, h.transparent.reads, h.transparent.writes, OrderedMap.size_trim _ _⟩, fun k line hb => ?_,
            fun r hr => ?_, h.valid⟩
          · have hset := OrderedMap.get?_trim hb
            rw [OrderedMap.get?_set] at hset
            split at hset
            · rename_i hk
              cases hset
              rw [hk]
              exact hbytes
            · exact h.cached k line hset
          · cases hr
            exact holds_copyLine hrange hlt hresult hoffset hbytes
        · exact hreject
    · exact hreject
  · rename_i offset body applied hrun
    split
    · split
      · rename_i happlied
        rw [happlied] at hrun
        exact inv_write h hrun fun _ _ => rfl
      · exact h
    · exact inv_write h hrun fun _ hs => by cases hs
  · rename_i applied hrun
    have hdisk := h.transparent.disk
    rw [hrun] at hdisk
    have happly : ∀ a, (⟨.flush, a, .rejected⟩ : Done).apply (imageAfter image w.history) = imageAfter image w.history :=
      fun a => by cases a <;> rfl
    split
    · split
      · exact inv_finish h hrun hdisk (fun _ _ _ => rfl) (fun _ _ _ hr => by cases hr) (fun _ _ _ hr => by cases hr)
      · exact h
    · exact inv_finish h hrun (hdisk.trans (happly applied).symm)
        (fun _ _ _ => congrArg (fun i => imageSlice i _ _) (happly applied))
        (fun _ _ _ hr => by cases hr) (fun _ _ _ hr => by cases hr)
  · exact h

theorem inv_destroy (h : Inv cfg image w) : Inv cfg image w.destroy where
  transparent := ⟨h.transparent.order, h.transparent.disk, h.transparent.reads, h.transparent.writes, Nat.zero_le _⟩
  cached _ _ hb := by cases hb
  holds := h.holds
  valid := h.valid

/-- **One event** keeps the invariant. -/
theorem inv_step (h : Inv cfg image w) (e : Event) : Inv cfg image (w.step cfg e) := by
  cases e with
  | call request => exact inv_call h request
  | begin => exact inv_begin h
  | next => exact inv_next h
  | reach => exact inv_reach h
  | settle ok => exact inv_settle h ok
  | destroy => exact inv_destroy h

theorem inv_run (events : List Event) (h : Inv cfg image w) : Inv cfg image (w.run cfg events) := by
  induction events generalizing w with
  | nil => exact h
  | cons e events ih => exact ih (inv_step h e)

/-! ## The queue is served -/

/-- From `w` events lead to an idle client with the same calls, of which `tail` wait. -/
def Idles (cfg : NativeDiskConfig) (w : World) (tail : List Request) : Prop :=
  ∃ events, (w.run cfg events).running = none ∧ (w.run cfg events).tail = tail ∧ (w.run cfg events).issued = w.issued

theorem idles_step (e : Event) {tail : List Request} (hissued : (w.step cfg e).issued = w.issued)
    (h : Idles cfg (w.step cfg e) tail) : Idles cfg w tail := by
  obtain ⟨events, hr, ht, hi⟩ := h
  exact ⟨e :: events, hr, ht, hi.trans hissued⟩

/-- A fetch that fails ends its operation. -/
theorem idles_settle {running : Running} (hrun : w.running = some running)
    (hfetch : ∀ offset length result, running ≠ .reading offset length result) : Idles cfg w w.tail := by
  refine ⟨[.settle false], ?_⟩
  unfold World.run World.step World.settle
  rw [List.foldl_cons, List.foldl_nil]
  dsimp only
  rw [hrun]
  cases running with
  | reading offset length result => exact absurd rfl (hfetch offset length result)
  | filling offset length result lineOffset answer => exact ⟨rfl, rfl, rfl⟩
  | writing offset body applied => exact ⟨rfl, rfl, rfl⟩
  | flushing applied => exact ⟨rfl, rfl, rfl⟩

/-- A cached line gives a read at least a byte. -/
theorem copyLine_grows {offset length : ℕ} {result line : List U8} (hrange : offset + length ≤ cfg.size)
    (hlen : result.length < length)
    (hline : line.length = lineLength cfg ((offset + result.length) / cfg.cacheLineSize * cfg.cacheLineSize)) :
    ∃ more, World.copyLine offset length result ((offset + result.length) / cfg.cacheLineSize * cfg.cacheLineSize) line =
      .reading offset length (result ++ more) ∧ 0 < more.length := by
  refine ⟨_, rfl, ?_⟩
  have hmod := Nat.div_add_mod' (offset + result.length) cfg.cacheLineSize
  have hlt := Nat.mod_lt (offset + result.length) cfg.line_pos
  have hlong : offset + result.length - (offset + result.length) / cfg.cacheLineSize * cfg.cacheLineSize < line.length := by
    rw [hline]
    unfold lineLength
    omega
  rw [List.length_take, List.length_drop]
  omega

theorem idles_read (n : ℕ) (h : Inv cfg image w) {offset length : ℕ} {result : List U8}
    (hrun : w.running = some (.reading offset length result)) (hn : length - result.length ≤ n) : Idles cfg w w.tail := by
  induction n generalizing w result with
  | zero =>
    refine ⟨[.next], ?_⟩
    unfold World.run World.step World.next
    rw [List.foldl_cons, List.foldl_nil]
    dsimp only
    rw [hrun]
    dsimp only
    rw [if_neg (by omega)]
    exact ⟨rfl, rfl, rfl⟩
  | succ n ih =>
    by_cases hlt : result.length < length
    · have hstep := inv_next h
      cases hc : w.cache.get? ((offset + result.length) / cfg.cacheLineSize * cfg.cacheLineSize) with
      | none =>
        have hnext : w.next cfg = { w with running := some (.filling offset length result
            ((offset + result.length) / cfg.cacheLineSize * cfg.cacheLineSize) none) } := by
          unfold World.next
          rw [hrun]
          dsimp only
          rw [if_pos hlt, hc]
        have hidle : Idles cfg (w.next cfg) (w.next cfg).tail := by
          rw [hnext]
          exact idles_settle rfl fun _ _ _ hr => by cases hr
        rw [hnext] at hidle
        refine idles_step .next ?_ ?_
        · show (w.next cfg).issued = w.issued
          rw [hnext]
        · show Idles cfg (w.next cfg) w.tail
          rw [hnext]
          exact hidle
      | some line =>
        have hnext : w.next cfg = { w with
            cache := (w.cache.delete ((offset + result.length) / cfg.cacheLineSize * cfg.cacheLineSize)).set
              ((offset + result.length) / cfg.cacheLineSize * cfg.cacheLineSize) line
            running := some (World.copyLine offset length result
              ((offset + result.length) / cfg.cacheLineSize * cfg.cacheLineSize) line) } := by
          unfold World.next
          rw [hrun]
          dsimp only
          rw [if_pos hlt, hc]
        have hline := congrArg List.length (h.cached _ _ hc)
        rw [length_imageSlice] at hline
        obtain ⟨more, hcopy, hpos⟩ := copyLine_grows (h.holds _ hrun).1 hlt hline
        rw [hcopy] at hnext
        rw [hnext] at hstep
        have hidle := ih hstep rfl (by rw [List.length_append]; omega)
        refine idles_step .next ?_ ?_
        · show (w.next cfg).issued = w.issued
          rw [hnext]
        · show Idles cfg (w.next cfg) w.tail
          rw [hnext]
          exact hidle
    · refine ⟨[.next], ?_⟩
      unfold World.run World.step World.next
      rw [List.foldl_cons, List.foldl_nil]
      dsimp only
      rw [hrun]
      dsimp only
      rw [if_neg hlt]
      exact ⟨rfl, rfl, rfl⟩

theorem idles_running (h : Inv cfg image w) : Idles cfg w w.tail := by
  cases hrun : w.running with
  | none => exact ⟨[], hrun, rfl, rfl⟩
  | some running =>
    cases running with
    | reading offset length result => exact idles_read _ h hrun (le_refl _)
    | filling offset length result lineOffset answer => exact idles_settle hrun fun _ _ _ hr => by cases hr
    | writing offset body applied => exact idles_settle hrun fun _ _ _ hr => by cases hr
    | flushing applied => exact idles_settle hrun fun _ _ _ hr => by cases hr

/-- **The queue is served** whatever has been rejected: from every state that a run reaches, all calls so far can settle. -/
theorem queue_served (h : Inv cfg image w) : ∃ events, (w.run cfg events).history.map Done.request = w.issued := by
  have hall : ∀ (n : ℕ) (w : World), Inv cfg image w → w.tail.length ≤ n → Idles cfg w [] := by
    intro n
    induction n with
    | zero =>
      intro w h hn
      have hidle := idles_running h
      rwa [List.length_eq_zero_iff.1 (Nat.le_zero.1 hn)] at hidle
    | succ n ih =>
      intro w h hn
      obtain ⟨events, hr, ht, hi⟩ := idles_running h
      have hw := inv_run events h
      cases htail : w.tail with
      | nil => exact ⟨events, hr, ht.trans htail, hi⟩
      | cons request tail =>
        rw [htail] at ht hn
        have hbegin : (w.run cfg events).begin = { w.run cfg events with running := some request.start, tail } := by
          unfold World.begin
          rw [hr, ht]
        have hnext := inv_begin hw
        rw [hbegin] at hnext
        obtain ⟨events', hr', ht', hi'⟩ := ih _ hnext (by dsimp only; rw [List.length_cons] at hn; omega)
        have hrun : w.run cfg (events ++ .begin :: events') =
            World.run cfg { w.run cfg events with running := some request.start, tail } events' := by
          rw [← hbegin]
          unfold World.run
          rw [List.foldl_append]
          rfl
        exact ⟨events ++ .begin :: events', by rw [hrun]; exact hr', by rw [hrun]; exact ht', by rw [hrun, hi']; exact hi⟩
  obtain ⟨events, hr, ht, hi⟩ := hall _ w h (le_refl _)
  have horder := (inv_run events h).transparent.order
  rw [hr, ht, hi, Option.map_none, Option.toList_none, List.append_nil, List.append_nil] at horder
  exact ⟨events, horder.symm⟩

/-- **The cache of the disk client is transparent** in every run of calls, of the service and of its failures, and the
client goes on with the calls that wait. -/
theorem cache_transparent (cfg : NativeDiskConfig) (image : ℕ → U8) (events : List Event) :
    Transparent cfg image ((World.start image).run cfg events) ∧
      ∃ more, (((World.start image).run cfg events).run cfg more).history.map Done.request =
        ((World.start image).run cfg events).issued :=
  ⟨(inv_run events (inv_start image)).transparent, queue_served (inv_run events (inv_start image))⟩

end NativeDisk

end Lish
