import Lish.Net.DiskHTTPRequest
import Mathlib.Data.List.Basic
import Mathlib.Data.List.Infix
/-!
# DiskHTTPSession — a request of the disk service, as it arrives

A session reads one request from a connection that hands its bytes over in chunks of its own choice.  Head and body share a
buffer; what has arrived with the head is tested against the limits, and what arrives after it is only counted.
-/
namespace Lish

/-- The first occurrence of the pattern. -/
def rangeOf (pattern : List U8) : List U8 → Option ℕ
  | [] => none
  | b :: bytes => if pattern <+: b :: bytes then some 0 else (rangeOf pattern bytes).map (· + 1)

/-- The empty line that ends the head of a request. -/
def crlfcrlf : List U8 := [13, 10, 13, 10]

namespace DiskHTTPSession

def maximumHeaderBytes : ℕ := 16 * 1024

/-- `DiskStore.defaultMaximumOperationBytes`. -/
def maximumRequestBytes : ℕ := 64 * 1024

end DiskHTTPSession

/-- What a session waits for: more of the head, or the rest of a body. -/
inductive DiskHTTPSession (Str : Type) where
  | receive (buffer : List U8)
  | receiveBody (request : HTTPRequest Str) (bodyStart missing : ℕ) (buffer : List U8)

/-- What the connection hands over: an error, or bytes or none, and whether these are its last. -/
inductive Callback where
  | error
  | received (data : Option (List U8)) (isComplete : Bool)

/-- What follows a callback. -/
inductive AfterReceive (Str : Type) where
  | again (session : DiskHTTPSession Str)
  | finish (outcome : Outcome)

namespace DiskHTTPSession

variable {Str : Type} [DecidableEq Str] (F : Foundation Str) (cfg : DiskHTTPServerConfiguration Str)

/-- The most bytes that the session asks for. -/
def limit : DiskHTTPSession Str → ℕ
  | receive _ => maximumHeaderBytes
  | receiveBody _ _ missing _ => missing

/-- The session has a whole head, and what has arrived with it. -/
def onHead (buffer : List U8) (lowerBound : ℕ) (isComplete : Bool) : AfterReceive Str :=
  match HTTPRequest.parse F (buffer.take lowerBound) with
  | .error error => .finish (.ofError error)
  | .ok request =>
    if request.bodyLength ≤ maximumRequestBytes then
      let bodyStart := lowerBound + crlfcrlf.length
      let receivedBodyLength := buffer.length - bodyStart
      if receivedBodyLength ≤ request.bodyLength then
        let missing := request.bodyLength - receivedBodyLength
        if 0 < missing then
          if isComplete then .finish (.plain 400 "incomplete request body")
          else .again (.receiveBody request bodyStart missing buffer)
        else .finish (perform F cfg request ((buffer.drop bodyStart).take request.bodyLength))
      else .finish (.plain 400 "request body exceeds content length")
    else .finish (.plain 413 "request body too large")

def onReceive (buffer : List U8) (data : Option (List U8)) (isComplete : Bool) : AfterReceive Str :=
  match data with
  | none => if isComplete then .finish .stop else .again (.receive buffer)
  | some data =>
    let buffer := buffer ++ data
    if buffer.length ≤ maximumHeaderBytes then
      match rangeOf crlfcrlf buffer with
      | none => if isComplete then .finish (.plain 400 "incomplete request headers") else .again (.receive buffer)
      | some lowerBound => onHead F cfg buffer lowerBound isComplete
    else .finish (.plain 431 "request headers too large")

def onReceiveBody (request : HTTPRequest Str) (bodyStart : ℕ) (buffer : List U8) (data : Option (List U8)) (isComplete : Bool) :
    AfterReceive Str :=
  let buffer := buffer ++ data.getD []
  if request.bodyLength ≤ buffer.length - bodyStart then
    .finish (perform F cfg request ((buffer.drop bodyStart).take request.bodyLength))
  else if isComplete then .finish (.plain 400 "incomplete request body")
  else .again (.receiveBody request bodyStart (request.bodyLength - (buffer.length - bodyStart)) buffer)

def step (s : DiskHTTPSession Str) : Callback → AfterReceive Str
  | .error => .finish .stop
  | .received data isComplete =>
    match s with
    | receive buffer => onReceive F cfg buffer data isComplete
    | receiveBody request bodyStart _ buffer => onReceiveBody F cfg request bodyStart buffer data isComplete

/-! ## Runs -/

/-- The session reads the rest of a stream, in chunks of at most what it asks for; the end of a stream that ends comes with
the last chunk or alone.  The outcome is none while the session waits on a stream that goes on. -/
inductive Run (ended : Bool) : DiskHTTPSession Str → List U8 → Option Outcome → Prop
  | waits (s : DiskHTTPSession Str) : ended = false → Run ended s [] none
  | ends {s : DiskHTTPSession Str} {o : Outcome} : ended = true → step F cfg s (.received none true) = .finish o →
    Run ended s [] (some o)
  | finishes {s : DiskHTTPSession Str} {chunk rest : List U8} {isComplete : Bool} {o : Outcome} :
    0 < chunk.length → chunk.length ≤ s.limit → (isComplete = true → ended = true ∧ rest = []) →
    step F cfg s (.received (some chunk) isComplete) = .finish o → Run ended s (chunk ++ rest) (some o)
  | goesOn {s s' : DiskHTTPSession Str} {chunk rest : List U8} {isComplete : Bool} {o : Option Outcome} :
    0 < chunk.length → chunk.length ≤ s.limit → (isComplete = true → ended = true ∧ rest = []) →
    step F cfg s (.received (some chunk) isComplete) = .again s' → Run ended s' rest o → Run ended s (chunk ++ rest) o

end DiskHTTPSession

/-! ## The end of the head -/

theorem rangeOf_eq_some {pattern : List U8} (hp : pattern ≠ []) {bytes : List U8} {i : ℕ} :
    rangeOf pattern bytes = some i ↔ pattern <+: bytes.drop i ∧ ∀ j < i, ¬ pattern <+: bytes.drop j := by
  induction bytes generalizing i with
  | nil =>
    refine ⟨fun h => (by cases h), fun h => ?_⟩
    rw [List.drop_nil, List.prefix_nil] at h
    exact absurd h.1 hp
  | cons b bytes ih =>
    rw [rangeOf]
    by_cases hb : pattern <+: b :: bytes
    · rw [if_pos hb, Option.some.injEq]
      constructor
      · rintro rfl
        exact ⟨hb, fun j hj => absurd hj (Nat.not_lt_zero j)⟩
      · rintro ⟨-, hn⟩
        exact (Nat.eq_zero_or_pos i).elim Eq.symm fun hi => absurd hb (hn 0 hi)
    · rw [if_neg hb, Option.map_eq_some_iff]
      constructor
      · rintro ⟨k, hk, rfl⟩
        obtain ⟨hk, hn⟩ := ih.1 hk
        refine ⟨hk, fun j hj => ?_⟩
        cases j with
        | zero => exact hb
        | succ j => exact hn j (by omega)
      · rintro ⟨hk, hn⟩
        cases i with
        | zero => exact absurd hk hb
        | succ i => exact ⟨i, ih.2 ⟨hk, fun j hj => hn (j + 1) (by omega)⟩, rfl⟩

/-- The first bytes of a stream hold the end of its head once they reach past it. -/
theorem rangeOf_take {pattern : List U8} (hp : pattern ≠ []) {bytes : List U8} {k i : ℕ} :
    rangeOf pattern (bytes.take k) = some i ↔ rangeOf pattern bytes = some i ∧ i + pattern.length ≤ k := by
  have hpos := List.length_pos_iff.2 hp
  rw [rangeOf_eq_some hp, rangeOf_eq_some hp]
  simp only [List.drop_take, List.prefix_take_iff]
  constructor
  · rintro ⟨⟨h, hk⟩, hn⟩
    refine ⟨⟨h, fun j hj hj' => hn j hj ⟨hj', by omega⟩⟩, by omega⟩
  · rintro ⟨⟨h, hn⟩, hk⟩
    exact ⟨⟨h, by omega⟩, fun j hj hj' => hn j hj hj'.1⟩

theorem rangeOf_length {pattern : List U8} (hp : pattern ≠ []) {bytes : List U8} {i : ℕ} (h : rangeOf pattern bytes = some i) :
    i + pattern.length ≤ bytes.length := by
  have h' := (rangeOf_eq_some hp).1 h
  have hle := h'.1.length_le
  have hpos := List.length_pos_iff.2 hp
  rw [List.length_drop] at hle
  omega

theorem crlfcrlf_ne_nil : crlfcrlf ≠ [] := List.cons_ne_nil _ _

theorem length_crlfcrlf : crlfcrlf.length = 4 := rfl

/-! ## What a run can end with -/

namespace DiskHTTPSession

variable {Str : Type} [DecidableEq Str] {F : Foundation Str} {cfg : DiskHTTPServerConfiguration Str} {ended : Bool}

/-- The end of a session that waits for a body, by the whole stream. -/
def bodyVerdict (F : Foundation Str) (cfg : DiskHTTPServerConfiguration Str) (ended : Bool) (request : HTTPRequest Str)
    (bodyStart : ℕ) (stream : List U8) : Option Outcome :=
  if request.bodyLength ≤ stream.length - bodyStart then
    some (perform F cfg request ((stream.drop bodyStart).take request.bodyLength))
  else if ended then some (.plain 400 "incomplete request body")
  else none

/-- The end of a session whose head ends at `lowerBound`, when `arrived` bytes have come by the time it is seen. -/
def headVerdict (F : Foundation Str) (cfg : DiskHTTPServerConfiguration Str) (ended : Bool) (stream : List U8)
    (lowerBound arrived : ℕ) : Option Outcome :=
  match HTTPRequest.parse F (stream.take lowerBound) with
  | .error error => some (.ofError error)
  | .ok request =>
    if request.bodyLength ≤ maximumRequestBytes then
      if arrived - (lowerBound + 4) ≤ request.bodyLength then bodyVerdict F cfg ended request (lowerBound + 4) stream
      else some (.plain 400 "request body exceeds content length")
    else some (.plain 413 "request body too large")

omit [DecidableEq Str] in
/-- Once the body is there, what follows it does not matter. -/
theorem perform_prefix (request : HTTPRequest Str) {start : ℕ} {buffer : List U8} (rest : List U8)
    (h : request.bodyLength ≤ buffer.length - start) (hs : start ≤ buffer.length) :
    ((buffer ++ rest).drop start).take request.bodyLength = (buffer.drop start).take request.bodyLength := by
  rw [List.drop_append_of_le_length hs, List.take_append_of_le_length]
  rw [List.length_drop]
  exact h

/-- **The rest of a body** is read the same way however it comes. -/
theorem run_body {s : DiskHTTPSession Str} {rest : List U8} {o : Option Outcome} (h : Run F cfg ended s rest o)
    {request : HTTPRequest Str} {start missing : ℕ} {buffer : List U8} (hs : s = receiveBody request start missing buffer)
    (hle : start ≤ buffer.length) (hmissing : buffer.length - start < request.bodyLength) :
    o = bodyVerdict F cfg ended request start (buffer ++ rest) := by
  induction h generalizing missing buffer with
  | waits s he =>
    unfold bodyVerdict
    rw [List.append_nil, if_neg (Nat.not_le.2 hmissing), he, if_neg Bool.false_ne_true]
  | ends he hstep =>
    subst hs
    unfold bodyVerdict
    rw [List.append_nil, if_neg (Nat.not_le.2 hmissing), if_pos he]
    simp only [step, onReceiveBody, Option.getD_none, List.append_nil] at hstep
    rw [if_neg (Nat.not_le.2 hmissing), if_pos trivial] at hstep
    injection hstep with hstep
    rw [hstep]
  | @finishes s chunk rest isComplete o hpos hlim hlast hstep =>
    subst hs
    unfold step onReceiveBody at hstep
    dsimp only [Option.getD_some] at hstep
    rw [← List.append_assoc]
    have hle' : start ≤ (buffer ++ chunk).length := by
      rw [List.length_append]
      omega
    split at hstep
    · rename_i hL
      injection hstep with hstep
      unfold bodyVerdict
      rw [if_pos, perform_prefix request rest hL hle', hstep]
      exact le_trans hL (Nat.sub_le_sub_right (List.prefix_append _ rest).length_le _)
    · rename_i hL
      split at hstep
      · rename_i hc
        obtain ⟨he, rfl⟩ := hlast hc
        injection hstep with hstep
        unfold bodyVerdict
        rw [List.append_nil, if_neg hL, if_pos he, hstep]
      · cases hstep
  | @goesOn s s' chunk rest isComplete o hpos hlim hlast hstep hrun ih =>
    subst hs
    unfold step onReceiveBody at hstep
    dsimp only [Option.getD_some] at hstep
    split at hstep
    · cases hstep
    · rename_i hL
      split at hstep
      · cases hstep
      · injection hstep with hstep
        rw [← List.append_assoc]
        exact ih hstep.symm (by rw [List.length_append]; omega) (by omega)

/-- What a run over a stream can end with, from the start. -/
inductive Verdict (F : Foundation Str) (cfg : DiskHTTPServerConfiguration Str) (ended : Bool) (stream : List U8) :
    Option Outcome → Prop
  | tooLarge : maximumHeaderBytes < stream.length → Verdict F cfg ended stream (some (.plain 431 "request headers too large"))
  | head (lowerBound arrived : ℕ) : rangeOf crlfcrlf stream = some lowerBound → lowerBound + 4 ≤ arrived →
    arrived ≤ maximumHeaderBytes → arrived ≤ stream.length →
    Verdict F cfg ended stream (headVerdict F cfg ended stream lowerBound arrived)
  | stop : stream.length ≤ maximumHeaderBytes → rangeOf crlfcrlf stream = none → ended = true →
    Verdict F cfg ended stream (some .stop)
  | incomplete : stream.length ≤ maximumHeaderBytes → rangeOf crlfcrlf stream = none → ended = true → stream ≠ [] →
    Verdict F cfg ended stream (some (.plain 400 "incomplete request headers"))
  | waits : stream.length ≤ maximumHeaderBytes → rangeOf crlfcrlf stream = none → ended = false →
    Verdict F cfg ended stream none

/-- The end of the head is seen in what has arrived, not in what follows. -/
theorem rangeOf_arrived {buffer : List U8} (rest : List U8) {i : ℕ} :
    rangeOf crlfcrlf buffer = some i ↔ rangeOf crlfcrlf (buffer ++ rest) = some i ∧ i + 4 ≤ buffer.length := by
  have h := @rangeOf_take crlfcrlf crlfcrlf_ne_nil (buffer ++ rest) buffer.length i
  rwa [List.take_left] at h

/-- A head that ends a run with the chunk that completes it. -/
theorem onHead_finish {buffer rest : List U8} {i : ℕ} {isComplete : Bool} {o : Outcome}
    (hi : i + 4 ≤ buffer.length) (hlast : isComplete = true → ended = true ∧ rest = [])
    (h : onHead F cfg buffer i isComplete = .finish o) :
    headVerdict F cfg ended (buffer ++ rest) i buffer.length = some o := by
  unfold headVerdict
  rw [List.take_append_of_le_length (by omega)]
  unfold onHead at h
  cases hp : HTTPRequest.parse F (buffer.take i) with
  | error error =>
    rw [hp] at h
    injection h with h
    exact congrArg some h
  | ok request =>
    rw [hp] at h
    dsimp only [length_crlfcrlf] at h ⊢
    split at h
    · rename_i hmax
      rw [if_pos hmax]
      split at h
      · rename_i hrec
        rw [if_pos hrec]
        unfold bodyVerdict
        split at h
        · rename_i hmissing
          split at h
          · rename_i hc
            obtain ⟨he, rfl⟩ := hlast hc
            injection h with h
            rw [List.append_nil, if_neg (by omega), if_pos he, h]
          · cases h
        · rename_i hmissing
          injection h with h
          rw [if_pos (by rw [List.length_append]; omega), perform_prefix request rest (by omega) hi, h]
      · rename_i hrec
        injection h with h
        rw [if_neg hrec, h]
    · rename_i hmax
      injection h with h
      rw [if_neg hmax, h]

/-- A head after which the session waits for a body. -/
theorem onHead_again {buffer : List U8} (rest : List U8) {i : ℕ} {isComplete : Bool} {s : DiskHTTPSession Str}
    (hi : i + 4 ≤ buffer.length) (h : onHead F cfg buffer i isComplete = .again s) :
    ∃ request, s = receiveBody request (i + 4) (request.bodyLength - (buffer.length - (i + 4))) buffer ∧
      buffer.length - (i + 4) < request.bodyLength ∧
      headVerdict F cfg ended (buffer ++ rest) i buffer.length = bodyVerdict F cfg ended request (i + 4) (buffer ++ rest) := by
  unfold headVerdict
  rw [List.take_append_of_le_length (by omega)]
  unfold onHead at h
  cases hp : HTTPRequest.parse F (buffer.take i) with
  | error error =>
    rw [hp] at h
    cases h
  | ok request =>
    rw [hp] at h
    dsimp only [length_crlfcrlf] at h ⊢
    split at h
    · rename_i hmax
      split at h
      · rename_i hrec
        split at h
        · split at h
          · cases h
          · injection h with h
            exact ⟨request, h.symm, by omega, by rw [if_pos hmax, if_pos hrec]⟩
        · cases h
      · cases h
    · cases h

/-- **A run ends with a verdict on its stream.** -/
theorem run_verdict {s : DiskHTTPSession Str} {rest : List U8} {o : Option Outcome} (h : Run F cfg ended s rest o)
    {buffer : List U8} (hs : s = receive buffer) (hlen : buffer.length ≤ maximumHeaderBytes)
    (hnone : rangeOf crlfcrlf buffer = none) : Verdict F cfg ended (buffer ++ rest) o := by
  induction h generalizing buffer with
  | waits s he =>
    rw [List.append_nil]
    exact .waits hlen hnone he
  | ends he hstep =>
    subst hs
    injection hstep with hstep
    rw [List.append_nil, ← hstep]
    exact .stop hlen hnone he
  | @finishes s chunk rest isComplete o hpos hlim hlast hstep =>
    subst hs
    simp only [step, onReceive] at hstep
    rw [← List.append_assoc]
    split at hstep
    · rename_i hmax
      cases hr : rangeOf crlfcrlf (buffer ++ chunk) with
      | none =>
        rw [hr] at hstep
        dsimp only at hstep
        split at hstep
        · rename_i hc
          obtain ⟨he, rfl⟩ := hlast hc
          injection hstep with hstep
          rw [List.append_nil, ← hstep]
          refine .incomplete hmax hr he fun hnil => ?_
          rw [(List.append_eq_nil_iff.1 hnil).2] at hpos
          exact Nat.lt_irrefl 0 hpos
        · cases hstep
      | some i =>
        rw [hr] at hstep
        obtain ⟨hr', hi⟩ := (rangeOf_arrived rest).1 hr
        rw [← onHead_finish hi hlast hstep]
        exact .head i _ hr' hi hmax (List.prefix_append _ rest).length_le
    · rename_i hmax
      injection hstep with hstep
      rw [← hstep]
      exact .tooLarge (lt_of_lt_of_le (Nat.lt_of_not_le hmax) (List.prefix_append _ rest).length_le)
  | @goesOn s s' chunk rest isComplete o hpos hlim hlast hstep hrun ih =>
    subst hs
    simp only [step, onReceive] at hstep
    rw [← List.append_assoc]
    split at hstep
    · rename_i hmax
      cases hr : rangeOf crlfcrlf (buffer ++ chunk) with
      | none =>
        rw [hr] at hstep
        dsimp only at hstep
        split at hstep
        · cases hstep
        · injection hstep with hstep
          exact ih hstep.symm hmax hr
      | some i =>
        rw [hr] at hstep
        obtain ⟨hr', hi⟩ := (rangeOf_arrived rest).1 hr
        obtain ⟨request, rfl, hL, hv⟩ := @onHead_again _ _ F cfg ended _ rest _ _ _ hi hstep
        rw [run_body hrun rfl hi hL, ← hv]
        exact .head i _ hr' hi hmax (List.prefix_append _ rest).length_le
    · cases hstep

/-! ## When the split does not matter -/

/-- **The streams that are judged alike however they are split**: without the end of a head in what may be buffered, those
that are too long for it, empty, or go on; and with one, those that fit the buffer as a whole and have nothing after the
body. -/
structure CutFree (F : Foundation Str) (ended : Bool) (stream : List U8) : Prop where
  headless : rangeOf crlfcrlf stream = none → maximumHeaderBytes < stream.length ∨ stream = [] ∨ ended = false
  headed : ∀ i, rangeOf crlfcrlf stream = some i → maximumHeaderBytes < i + 4 ∨
    stream.length ≤ maximumHeaderBytes ∧ ∀ request, HTTPRequest.parse F (stream.take i) = .ok request →
      request.bodyLength ≤ maximumRequestBytes → stream.length ≤ i + 4 + request.bodyLength

/-- Every split of the stream ends the same way, and an operation of the store belongs to a whole request and nothing
more, with its body. -/
structure Insensitive (F : Foundation Str) (cfg : DiskHTTPServerConfiguration Str) (ended : Bool) (stream : List U8) : Prop where
  same : ∀ o o', Run F cfg ended (receive []) stream o → Run F cfg ended (receive []) stream o' → o = o'
  whole : ∀ op, Run F cfg ended (receive []) stream (some (.store op)) → ∃ i request, rangeOf crlfcrlf stream = some i ∧
    i + 4 ≤ maximumHeaderBytes ∧ HTTPRequest.parse F (stream.take i) = .ok request ∧
    request.bodyLength ≤ maximumRequestBytes ∧ stream.length = i + 4 + request.bodyLength ∧
    ∀ offset data, op = .write offset data → data = stream.drop (i + 4)

/-- A head is judged without the bytes after it, where they are not too many. -/
theorem headVerdict_arrived {stream : List U8} {i arrived : ℕ} (hc : CutFree F ended stream)
    (hi : rangeOf crlfcrlf stream = some i) (hmax : i + 4 ≤ maximumHeaderBytes) (ha : arrived ≤ stream.length) :
    headVerdict F cfg ended stream i arrived = headVerdict F cfg ended stream i (i + 4) := by
  obtain ⟨-, hL⟩ := (hc.headed i hi).resolve_left (Nat.not_lt.2 hmax)
  unfold headVerdict
  cases hp : HTTPRequest.parse F (stream.take i) with
  | error error => rfl
  | ok request =>
    dsimp only
    split
    · rename_i hle
      have := hL request hp hle
      rw [if_pos (by omega), if_pos (by omega)]
    · rfl

/-- What a stream that is judged alike ends with. -/
def cutFreeEnd (F : Foundation Str) (cfg : DiskHTTPServerConfiguration Str) (ended : Bool) (stream : List U8) : Option Outcome :=
  if maximumHeaderBytes < stream.length then some (.plain 431 "request headers too large")
  else
    match rangeOf crlfcrlf stream with
    | some i => headVerdict F cfg ended stream i (i + 4)
    | none => if ended then some .stop else none

theorem cutFree_end {stream : List U8} {o : Option Outcome} (hc : CutFree F ended stream) (h : Verdict F cfg ended stream o) :
    o = cutFreeEnd F cfg ended stream := by
  unfold cutFreeEnd
  cases h with
  | tooLarge hlen => rw [if_pos hlen]
  | head i arrived hi hle hmax ha =>
    have hlen := ((hc.headed i hi).resolve_left (by omega)).1
    rw [if_neg (Nat.not_lt.2 hlen), hi]
    exact headVerdict_arrived hc hi (by omega) ha
  | stop hlen hi he =>
    rw [if_neg (Nat.not_lt.2 hlen), hi]
    exact (if_pos he).symm
  | incomplete hlen hi he hne =>
    rcases hc.headless hi with h | h | h
    · exact absurd hlen (Nat.not_le.2 h)
    · exact absurd h hne
    · rw [he] at h
      cases h
  | waits hlen hi he =>
    rw [if_neg (Nat.not_lt.2 hlen), hi]
    dsimp only
    rw [he, if_neg Bool.false_ne_true]

/-- An operation of the store comes from a head with its whole body. -/
theorem store_headVerdict {stream : List U8} {i arrived : ℕ} {op : StoreOp}
    (h : headVerdict F cfg ended stream i arrived = some (.store op)) :
    ∃ request, HTTPRequest.parse F (stream.take i) = .ok request ∧ request.bodyLength ≤ maximumRequestBytes ∧
      request.bodyLength ≤ stream.length - (i + 4) ∧
      perform F cfg request ((stream.drop (i + 4)).take request.bodyLength) = .store op := by
  unfold headVerdict at h
  cases hp : HTTPRequest.parse F (stream.take i) with
  | error error =>
    rw [hp] at h
    injection h with h
    cases h
  | ok request =>
    rw [hp] at h
    dsimp only at h
    split at h
    · rename_i hmax
      split at h
      · unfold bodyVerdict at h
        split at h
        · rename_i hL
          injection h with h
          exact ⟨request, rfl, hmax, hL, h⟩
        · split at h
          · injection h with h
            cases h
          · cases h
      · injection h with h
        cases h
    · injection h with h
      cases h

theorem insensitive_of_cutFree {stream : List U8} (hc : CutFree F ended stream) : Insensitive F cfg ended stream := by
  have hv : ∀ o, Run F cfg ended (receive []) stream o → Verdict F cfg ended stream o := fun o h =>
    run_verdict h rfl (Nat.zero_le _) rfl
  refine ⟨fun o o' h h' => ?_, fun op h => ?_⟩
  · rw [cutFree_end hc (hv o h), cutFree_end hc (hv o' h')]
  · generalize ho : some (Outcome.store op) = o at h
    cases hv o h with
    | tooLarge => cases ho
    | head i arrived hi hle hmax ha =>
      obtain ⟨request, hp, hL, hbody, hop⟩ := store_headVerdict ho.symm
      obtain ⟨-, hall⟩ := (hc.headed i hi).resolve_left (by omega)
      have hfit := hall request hp hL
      refine ⟨i, request, hi, by omega, hp, hL, by omega, fun offset data hw => ?_⟩
      rw [hw] at hop
      rw [perform_write F cfg hop, List.take_of_length_le]
      rw [List.length_drop]
      omega
    | stop => cases ho
    | incomplete => cases ho
    | waits => cases ho

/-! ## Two splits of the other streams -/

/-- A session that waits for a body ends, or waits for a stream that goes on. -/
theorem run_body_exists (request : HTTPRequest Str) {start : ℕ} {buffer rest : List U8} (hle : start ≤ buffer.length)
    (hmissing : buffer.length - start < request.bodyLength) :
    ∃ o, Run F cfg ended (receiveBody request start (request.bodyLength - (buffer.length - start)) buffer) rest o := by
  have hnil : ∀ (missing : ℕ) (buffer' : List U8), buffer'.length - start < request.bodyLength →
      ∃ o, Run F cfg ended (receiveBody request start missing buffer') [] o := fun missing buffer' hm => by
    cases he : ended with
    | false => exact ⟨none, .waits _ rfl⟩
    | true =>
      refine ⟨some (.plain 400 "incomplete request body"), .ends rfl ?_⟩
      simp only [step, onReceiveBody, Option.getD_none, List.append_nil]
      rw [if_neg (Nat.not_le.2 hm), if_pos trivial]
  have hgo : ∀ rest : List U8, false = true → ended = true ∧ rest = [] := fun rest h => absurd h Bool.false_ne_true
  by_cases hrest : request.bodyLength - (buffer.length - start) ≤ rest.length
  · have hlen : (rest.take (request.bodyLength - (buffer.length - start))).length =
        request.bodyLength - (buffer.length - start) := List.length_take_of_le hrest
    have hsplit := List.take_append_drop (request.bodyLength - (buffer.length - start)) rest
    generalize rest.take (request.bodyLength - (buffer.length - start)) = chunk at hlen hsplit
    have hstep : step F cfg (receiveBody request start (request.bodyLength - (buffer.length - start)) buffer)
        (.received (some chunk) false) =
        .finish (perform F cfg request (((buffer ++ chunk).drop start).take request.bodyLength)) := by
      simp only [step, onReceiveBody, Option.getD_some]
      rw [if_pos (by rw [List.length_append, hlen]; omega)]
    rw [← hsplit]
    exact ⟨_, .finishes (by omega) hlen.le (hgo _) hstep⟩
  · by_cases hpos : 0 < rest.length
    · have hm : (buffer ++ rest).length - start < request.bodyLength := by
        rw [List.length_append]
        omega
      have hstep : step F cfg (receiveBody request start (request.bodyLength - (buffer.length - start)) buffer)
          (.received (some rest) false) =
          .again (receiveBody request start (request.bodyLength - ((buffer ++ rest).length - start)) (buffer ++ rest)) := by
        simp only [step, onReceiveBody, Option.getD_some]
        rw [if_neg (Nat.not_le.2 hm), if_neg Bool.false_ne_true]
      obtain ⟨o, ho⟩ := hnil (request.bodyLength - ((buffer ++ rest).length - start)) (buffer ++ rest) hm
      have hlim : rest.length ≤
          limit (receiveBody request start (request.bodyLength - (buffer.length - start)) buffer) := Nat.le_of_not_le hrest
      have hrun := Run.goesOn hpos hlim (hgo _) hstep ho
      rw [List.append_nil] at hrun
      exact ⟨o, hrun⟩
    · rw [List.length_eq_zero_iff.1 (by omega : rest.length = 0)]
      exact hnil _ _ hmissing

/-- The split that cuts after the head. -/
theorem run_after_head {stream : List U8} {i : ℕ} (hi : rangeOf crlfcrlf stream = some i) (hmax : i + 4 ≤ maximumHeaderBytes) :
    Run F cfg ended (receive []) stream (headVerdict F cfg ended stream i (i + 4)) := by
  have hle := rangeOf_length crlfcrlf_ne_nil hi
  rw [length_crlfcrlf] at hle
  have hlen : (stream.take (i + 4)).length = i + 4 := List.length_take_of_le hle
  have hr : rangeOf crlfcrlf (stream.take (i + 4)) = some i :=
    (rangeOf_take crlfcrlf_ne_nil).2 ⟨hi, le_of_eq (congrArg (i + ·) length_crlfcrlf)⟩
  have hstep : step F cfg (receive []) (.received (some (stream.take (i + 4))) false) =
      onHead F cfg (stream.take (i + 4)) i false := by
    simp only [step, onReceive, List.nil_append]
    rw [if_pos (by omega), hr]
  have hlast : false = true → ended = true ∧ stream.drop (i + 4) = [] := fun h => absurd h Bool.false_ne_true
  have hsplit := List.take_append_drop (i + 4) stream
  cases hn : onHead F cfg (stream.take (i + 4)) i false with
  | finish o =>
    have hv := onHead_finish (by omega) hlast hn
    rw [hsplit, hlen] at hv
    have hrun := Run.finishes (by omega) (show _ ≤ (receive [] : DiskHTTPSession Str).limit by rw [hlen]; exact hmax) hlast
      (hstep.trans hn)
    rwa [hsplit, ← hv] at hrun
  | again s =>
    obtain ⟨request, rfl, hL, hv⟩ := @onHead_again _ _ F cfg ended _ (stream.drop (i + 4)) _ _ _ (by omega) hn
    obtain ⟨o, ho⟩ := @run_body_exists _ _ F cfg ended request (i + 4) _ (stream.drop (i + 4)) (by omega) hL
    rw [hsplit, hlen] at hv
    have hrun := Run.goesOn (by omega) (show _ ≤ (receive [] : DiskHTTPSession Str).limit by rw [hlen]; exact hmax) hlast
      (hstep.trans hn) ho
    rw [run_body ho rfl (by omega) hL, hsplit, ← hv] at hrun
    exact hrun

/-- A verdict on a head is never that the head is too large. -/
theorem headVerdict_ne {stream : List U8} {i arrived : ℕ} :
    headVerdict F cfg ended stream i arrived ≠ some (.plain 431 "request headers too large") := by
  intro h
  have hstatus : ∀ {status : ℕ} {message : String}, status ≤ 413 →
      some (Outcome.plain status message) ≠ some (.plain 431 "request headers too large") := fun hs h => by
    injection h with h
    injection h with h
    injection h with h
    omega
  unfold headVerdict at h
  cases hp : HTTPRequest.parse F (stream.take i) with
  | error error =>
    rw [hp] at h
    exact hstatus (le_trans (HTTPRequest.parse_status F hp) (by decide)) h
  | ok request =>
    rw [hp] at h
    dsimp only at h
    split at h
    · split at h
      · unfold bodyVerdict at h
        split at h
        · injection h with h
          have := perform_status F cfg h
          exact absurd this (by decide)
        · split at h
          · exact hstatus (by decide) h
          · cases h
      · exact hstatus (by decide) h
    · exact hstatus (by decide) h

/-- A stream without a head that ends with its last byte is answered. -/
theorem run_incomplete {stream : List U8} (hlen : stream.length ≤ maximumHeaderBytes) (hne : stream ≠ [])
    (hnone : rangeOf crlfcrlf stream = none) :
    Run F cfg true (receive []) stream (some (.plain 400 "incomplete request headers")) := by
  have hstep : step F cfg (receive []) (.received (some stream) true) = .finish (.plain 400 "incomplete request headers") := by
    simp only [step, onReceive, List.nil_append]
    rw [if_pos hlen, hnone]
    exact if_pos trivial
  have hrun := Run.finishes (List.length_pos_iff.2 hne) (show _ ≤ (receive [] : DiskHTTPSession Str).limit from hlen)
    (fun _ => ⟨rfl, rfl⟩) hstep
  rwa [List.append_nil] at hrun

/-- One whose end comes alone is not. -/
theorem run_stop {stream : List U8} (hlen : stream.length ≤ maximumHeaderBytes) (hne : stream ≠ [])
    (hnone : rangeOf crlfcrlf stream = none) : Run F cfg true (receive []) stream (some .stop) := by
  have hstep : step F cfg (receive []) (.received (some stream) false) = .again (receive stream) := by
    simp only [step, onReceive, List.nil_append]
    rw [if_pos hlen, hnone]
    exact if_neg Bool.false_ne_true
  have hend : step F cfg (receive stream) (.received none true) = .finish .stop := rfl
  have hrun := Run.goesOn (List.length_pos_iff.2 hne) (show _ ≤ (receive [] : DiskHTTPSession Str).limit from hlen)
    (fun h => absurd h Bool.false_ne_true) hstep (Run.ends rfl hend)
  rwa [List.append_nil] at hrun

/-- More bytes than a head may have are too large, whatever they are, when they arrive so. -/
theorem run_tooLarge {stream : List U8} (hlen : maximumHeaderBytes < stream.length) :
    Run F cfg ended (receive []) stream (some (.plain 431 "request headers too large")) := by
  have hgo : ∀ rest : List U8, false = true → ended = true ∧ rest = [] := fun rest h => absurd h Bool.false_ne_true
  have hone : (stream.take 1).length = 1 := List.length_take_of_le (by omega)
  have hmany : ((stream.drop 1).take maximumHeaderBytes).length = maximumHeaderBytes := by
    apply List.length_take_of_le
    rw [List.length_drop]
    omega
  have hnone : rangeOf crlfcrlf (stream.take 1) = none := by
    rw [Option.eq_none_iff_forall_ne_some]
    intro j hj
    have hle := rangeOf_length crlfcrlf_ne_nil hj
    rw [length_crlfcrlf, hone] at hle
    omega
  have hfirst : step F cfg (receive []) (.received (some (stream.take 1)) false) = .again (receive (stream.take 1)) := by
    simp only [step, onReceive, List.nil_append]
    rw [if_pos (by rw [hone]; decide), hnone]
    exact if_neg Bool.false_ne_true
  have hsecond : step F cfg (receive (stream.take 1)) (.received (some ((stream.drop 1).take maximumHeaderBytes)) false) =
      .finish (.plain 431 "request headers too large") := by
    simp only [step, onReceive]
    rw [if_neg]
    rw [List.length_append, hone, hmany]
    decide
  have hfit : (stream.take 1).length ≤ (receive [] : DiskHTTPSession Str).limit := by
    rw [hone]
    exact (by decide : 1 ≤ maximumHeaderBytes)
  have hrun := Run.goesOn (by omega) hfit (hgo _) hfirst
    (Run.finishes (by rw [hmany]; decide) (show _ ≤ (receive (stream.take 1) : DiskHTTPSession Str).limit from hmany.le)
      (hgo ((stream.drop 1).drop maximumHeaderBytes)) hsecond)
  rwa [List.take_append_drop, List.take_append_drop] at hrun

/-- Bytes that arrive with the body and do not belong to it refuse the request. -/
theorem run_exceeds {stream : List U8} {i : ℕ} {request : HTTPRequest Str} (hi : rangeOf crlfcrlf stream = some i)
    (hlen : stream.length ≤ maximumHeaderBytes) (hp : HTTPRequest.parse F (stream.take i) = .ok request)
    (hL : request.bodyLength ≤ maximumRequestBytes) (hover : i + 4 + request.bodyLength < stream.length) :
    Run F cfg ended (receive []) stream (some (.plain 400 "request body exceeds content length")) := by
  have hpos : 0 < stream.length := by omega
  have hbody : ¬ stream.length - (i + 4) ≤ request.bodyLength := by omega
  have hstep : step F cfg (receive []) (.received (some stream) false) =
      .finish (.plain 400 "request body exceeds content length") := by
    simp only [step, onReceive, onHead, List.nil_append, length_crlfcrlf]
    rw [if_pos hlen, hi]
    dsimp only
    rw [hp]
    dsimp only
    rw [if_pos hL]
    exact if_neg hbody
  have hgo : false = true → ended = true ∧ ([] : List U8) = [] := fun h => absurd h Bool.false_ne_true
  have hrun := Run.finishes hpos (show _ ≤ (receive [] : DiskHTTPSession Str).limit from hlen) hgo hstep
  rwa [List.append_nil] at hrun

theorem cutFree_of_insensitive {stream : List U8} (h : Insensitive F cfg ended stream) : CutFree F ended stream := by
  refine ⟨fun hnone => ?_, fun i hi => ?_⟩
  · by_contra hc
    have hlen : stream.length ≤ maximumHeaderBytes := Nat.le_of_not_lt fun h => hc (Or.inl h)
    have hne : stream ≠ [] := fun h => hc (Or.inr (Or.inl h))
    cases ended with
    | false => exact hc (Or.inr (Or.inr rfl))
    | true =>
      have hsame := h.same _ _ (run_incomplete hlen hne hnone) (run_stop hlen hne hnone)
      injection hsame with hsame
      cases hsame
  · by_contra hc
    have hmax : i + 4 ≤ maximumHeaderBytes := Nat.le_of_not_lt fun h => hc (Or.inl h)
    by_cases hlen : maximumHeaderBytes < stream.length
    · exact headVerdict_ne (h.same _ _ (run_tooLarge hlen) (run_after_head hi hmax)).symm
    · refine hc (Or.inr ⟨Nat.le_of_not_lt hlen, fun request hp hL => Nat.le_of_not_lt fun hover => ?_⟩)
      have hsame := h.same _ _ (run_exceeds hi (Nat.le_of_not_lt hlen) hp hL hover) (run_after_head hi hmax)
      unfold headVerdict at hsame
      rw [hp] at hsame
      dsimp only at hsame
      rw [if_pos hL, if_pos (by omega)] at hsame
      unfold bodyVerdict at hsame
      rw [if_pos (by omega)] at hsame
      injection hsame with hsame
      exact perform_ne F cfg request _ hsame.symm

/-- **A session is insensitive to the split of its stream** exactly when the stream is judged alike. -/
theorem insensitive_iff (F : Foundation Str) (cfg : DiskHTTPServerConfiguration Str) (ended : Bool) (stream : List U8) :
    Insensitive F cfg ended stream ↔ CutFree F ended stream :=
  ⟨cutFree_of_insensitive, insensitive_of_cutFree⟩

/-! ## A request to write -/

/-- A text in ASCII, cut at a character. -/
def plainSplit (separator : Char) : List Char → List (List Char)
  | [] => [[]]
  | c :: s =>
    match plainSplit separator s with
    | [] => [[c]]
    | part :: parts => if c = separator then [] :: part :: parts else (c :: part) :: parts

/-- A text in ASCII, cut at its line ends. -/
def plainLines (s : List Char) : List (List Char) :=
  match plainSplit '\n' s with
  | [] => []
  | first :: rest => (first :: rest).map fun line => if line.getLast? = some '\r' then line.dropLast else line

def plainTrimmed (s : List Char) : List Char := ((s.dropWhile Char.isWhitespace).reverse.dropWhile Char.isWhitespace).reverse

def plainNumber (s : List Char) : Option ℕ :=
  if s ≠ [] ∧ s.all Char.isDigit then some (s.foldl (fun n c => 10 * n + (c.toNat - 48)) 0) else none

def plainCut (separator : Char) (s : List Char) : Option (List Char × List Char) :=
  if separator ∈ s then some (s.takeWhile (· ≠ separator), (s.dropWhile (· ≠ separator)).tail) else none

def plainTarget (s : List Char) : List Char × Option (List (List Char × Option (List Char))) :=
  match plainCut '?' s with
  | none => (s, none)
  | some (path, query) => (path, some ((plainSplit '&' query).map fun item =>
      match plainCut '=' item with
      | none => (item, none)
      | some (name, value) => (name, some value)))

/-- The system library on text in ASCII. -/
def plainFoundation : Foundation (List Char) where
  text := String.toList
  ofUtf8 bytes := some (bytes.map fun b => Char.ofNat b.toNat)
  lines := plainLines
  split separator omitting s := (plainSplit separator s).filter fun part => !(omitting && part.isEmpty)
  cutAtColon := plainCut ':'
  lowercased s := s.map Char.toLower
  uppercased s := s.map Char.toUpper
  trimmed := plainTrimmed
  trimmedLines := plainTrimmed
  isEmpty := List.isEmpty
  int s := (plainNumber s).map Int.ofNat
  uint64 s := (plainNumber s).bind fun n => if n < 2 ^ 64 then some (BitVec.ofNat 64 n) else none
  urlComponents s := some (plainTarget s)

/-- The head of a request to write 64 KiB. -/
def putHead : List U8 :=
  asciiBytes "PUT /s/aaaaaaaaaaaaaaaaaaaaaaaaaaaaaaaa/vms/v/disk?offset=0 HTTP/1.1\r\nhost: localhost\r\ncontent-length: 65536"

def putRequest : HTTPRequest (List Char) where
  method := "PUT".toList
  path := "/s/aaaaaaaaaaaaaaaaaaaaaaaaaaaaaaaa/vms/v/disk".toList
  query := [("offset".toList, some "0".toList)]
  origin := none
  accessControlRequestMethod := none
  accessControlRequestHeaders := none
  bodyLength := 65536

def putConfiguration : DiskHTTPServerConfiguration (List Char) where
  diskPath := "/s/aaaaaaaaaaaaaaaaaaaaaaaaaaaaaaaa/vms/v/disk".toList
  flushPath := "/s/aaaaaaaaaaaaaaaaaaaaaaaaaaaaaaaa/vms/v/disk/flush".toList
  allowedOrigin := "http://localhost".toList
  byteCount := 1048576

def putStream : List U8 := putHead ++ (crlfcrlf ++ List.replicate 65536 0)

set_option maxRecDepth 100000 in
theorem parse_putHead : HTTPRequest.parse plainFoundation putHead = .ok putRequest := rfl

set_option maxRecDepth 100000 in
theorem rangeOf_putHead : rangeOf crlfcrlf (putHead ++ crlfcrlf) = some putHead.length := by decide +kernel

theorem length_putStream : putStream.length = putHead.length + 4 + 65536 := by
  unfold putStream
  rw [List.length_append, List.length_append, List.length_replicate, length_crlfcrlf, Nat.add_assoc]

/-- Whether a request to write reaches the disk depends on how it arrives. -/
theorem put_depends_on_split :
    Run plainFoundation putConfiguration false (receive []) putStream (some (.store (.write 0 (List.replicate 65536 0)))) ∧
    Run plainFoundation putConfiguration false (receive []) putStream (some (.plain 431 "request headers too large")) ∧
    ¬ Insensitive plainFoundation putConfiguration false putStream := by
  have hrange : rangeOf crlfcrlf putStream = some putHead.length := by
    have h := ((@rangeOf_arrived (putHead ++ crlfcrlf) (List.replicate 65536 0) _).1 rangeOf_putHead).1
    rwa [List.append_assoc] at h
  have hsmall : putHead.length + 4 ≤ maximumHeaderBytes := by decide +kernel
  have hlarge : maximumHeaderBytes < putStream.length := by
    have : maximumHeaderBytes = 16384 := rfl
    rw [length_putStream]
    omega
  have htake : putStream.take putHead.length = putHead := List.take_left
  have hdrop : putStream.drop (putHead.length + 4) = List.replicate 65536 0 := by
    unfold putStream
    rw [← List.append_assoc, List.drop_left' (by rw [List.length_append, length_crlfcrlf])]
  have hbody : (List.replicate 65536 (0 : U8)).take putRequest.bodyLength = List.replicate 65536 0 :=
    List.take_of_length_le (by rw [List.length_replicate]; exact le_refl 65536)
  have hlen : putRequest.bodyLength = 65536 := rfl
  have hwrite : ∀ body, perform plainFoundation putConfiguration putRequest body = .store (.write 0 body) := fun _ => rfl
  have hput : headVerdict plainFoundation putConfiguration false putStream putHead.length (putHead.length + 4) =
      some (.store (.write 0 (List.replicate 65536 0))) := by
    unfold headVerdict
    rw [htake, parse_putHead]
    dsimp only
    rw [if_pos (by decide), if_pos (by rw [Nat.sub_self]; exact Nat.zero_le _)]
    unfold bodyVerdict
    rw [length_putStream, if_pos (by rw [hlen]; omega), hdrop, hbody, hwrite]
  have hrun := @run_after_head _ _ plainFoundation putConfiguration false _ _ hrange hsmall
  rw [hput] at hrun
  refine ⟨hrun, run_tooLarge hlarge, fun h => ?_⟩
  have hsame := h.same _ _ hrun (run_tooLarge hlarge)
  injection hsame with hsame
  cases hsame

end DiskHTTPSession

end Lish
