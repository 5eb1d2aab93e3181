import Lish.Core.Arch
import Lish.Prog.HashMap
/-!
# DiskHTTPRequest — the requests of the disk service

The head of a request as the service parses it, and what the service does with a request whose body is there.  Text is
the system library's: its operations are parameters.
-/
namespace Lish

/-- What the system library does with text.  Two texts that it holds for the same are equal. -/
structure Foundation (Str : Type) where
  /-- A literal. -/
  text : String → Str
  /-- `String(data:encoding: .utf8)`. -/
  ofUtf8 : List U8 → Option Str
  /-- `components(separatedBy: "\r\n")`. -/
  lines : Str → List Str
  /-- `split(separator:omittingEmptySubsequences:)`. -/
  split : Char → Bool → Str → List Str
  /-- What is before and what is after `firstIndex(of: ":")`. -/
  cutAtColon : Str → Option (Str × Str)
  lowercased : Str → Str
  uppercased : Str → Str
  /-- `trimmingCharacters(in: .whitespaces)`. -/
  trimmed : Str → Str
  /-- `trimmingCharacters(in: .whitespacesAndNewlines)`. -/
  trimmedLines : Str → Str
  isEmpty : Str → Bool
  /-- `Int(_:)`. -/
  int : Str → Option ℤ
  /-- `UInt64(_:)`. -/
  uint64 : Str → Option U64
  /-- `URLComponents(string:)`: its path and its query items. -/
  urlComponents : Str → Option (Str × Option (List (Str × Option Str)))

structure DiskHTTPServerConfiguration (Str : Type) where
  diskPath : Str
  flushPath : Str
  allowedOrigin : Str
  /-- `store.geometry.byteCount`. -/
  byteCount : U64

structure HTTPRequest (Str : Type) where
  method : Str
  path : Str
  query : List (Str × Option Str)
  origin : Option Str
  accessControlRequestMethod : Option Str
  accessControlRequestHeaders : Option Str
  bodyLength : ℕ

structure RequestError where
  status : ℕ
  message : String

structure HTTPResponse where
  status : ℕ
  body : List U8
  diskSize : Option U64
  preflight : Bool

/-- An operation of the disk store. -/
inductive StoreOp where
  | flush
  | read (offset : U64) (length : ℕ)
  | write (offset : U64) (data : List U8)

inductive DiskError where
  | notRegular
  | emptyImage
  | unalignedImage
  | sameImage
  | copyChangedSource
  | closed
  | emptyRange
  | emptyWrite
  | rangeOutOfBounds
  | operationTooLarge
  | shortRead
  | shortWrite
  | system

namespace HTTPRequest

variable {Str : Type} [DecidableEq Str] (F : Foundation Str)

/-- One header line; a name may stand once. -/
def addHeader (headers : HashMap Str Str) (line : Str) : Except RequestError (HashMap Str Str) :=
  match F.cutAtColon line with
  | none => .error ⟨400, "invalid header"⟩
  | some (name, value) =>
    if (headers (F.lowercased name)).isSome then .error ⟨400, "duplicate header"⟩
    else .ok (headers.insert (F.lowercased name) (F.trimmed value))

/-- The request of a request line and its headers. -/
def ofHeaders (method target : Str) (headers : HashMap Str Str) : Except RequestError (HTTPRequest Str) :=
  if (headers (F.text "transfer-encoding")).isSome then .error ⟨400, "chunked encoding is not supported"⟩
  else
    let contentLength := headers (F.text "content-length")
    let bodyLength := (F.int (contentLength.getD (F.text "0"))).getD (-1)
    if bodyLength < 0 then .error ⟨400, "invalid content length"⟩
    else if method = F.text "PUT" ∧ contentLength.isNone then .error ⟨411, "content length is required"⟩
    else
      match F.urlComponents target with
      | none => .error ⟨400, "invalid request target"⟩
      | some (path, query) => .ok {
          method
          path
          query := query.getD []
          origin := headers (F.text "origin")
          accessControlRequestMethod := headers (F.text "access-control-request-method")
          accessControlRequestHeaders := headers (F.text "access-control-request-headers")
          bodyLength := bodyLength.toNat }

/-- The head of a request, without the empty line that ends it. -/
def parse (headerData : List U8) : Except RequestError (HTTPRequest Str) :=
  match F.ofUtf8 headerData with
  | none => .error ⟨400, "invalid headers"⟩
  | some text =>
    match F.lines text with
    | [] => .error ⟨400, "missing request line"⟩
    | requestLine :: lines =>
      match F.split ' ' true requestLine with
      | [method, target, version] =>
        if version = F.text "HTTP/1.1" then
          (lines.foldlM (addHeader F) HashMap.empty).bind (ofHeaders F method target)
        else .error ⟨400, "HTTP/1.1 is required"⟩
      | _ => .error ⟨400, "HTTP/1.1 is required"⟩

/-- The statuses of the requests that do not parse. -/
theorem addHeader_status {headers : HashMap Str Str} {line : Str} {e : RequestError} (h : addHeader F headers line = .error e) :
    e.status ≤ 411 := by
  unfold addHeader at h
  split at h
  · injection h with h
    rw [← h]
    decide
  · split at h
    · injection h with h
      rw [← h]
      decide
    · cases h

theorem addHeaders_status {lines : List Str} {headers : HashMap Str Str} {e : RequestError}
    (h : lines.foldlM (addHeader F) headers = .error e) : e.status ≤ 411 := by
  induction lines generalizing headers with
  | nil => cases h
  | cons line lines ih =>
    rw [List.foldlM_cons] at h
    cases ha : addHeader F headers line with
    | error e' =>
      rw [ha] at h
      injection h with h
      rw [← h]
      exact addHeader_status F ha
    | ok headers' =>
      rw [ha] at h
      exact ih h

theorem ofHeaders_status {method target : Str} {headers : HashMap Str Str} {e : RequestError}
    (h : ofHeaders F method target headers = .error e) : e.status ≤ 411 := by
  unfold ofHeaders at h
  dsimp only at h
  split at h
  · injection h with h
    rw [← h]
    decide
  · split at h
    · injection h with h
      rw [← h]
      decide
    · split at h
      · injection h with h
        rw [← h]
      · split at h
        · injection h with h
          rw [← h]
          decide
        · cases h

theorem parse_status {headerData : List U8} {e : RequestError} (h : parse F headerData = .error e) : e.status ≤ 411 := by
  have hplain : ∀ message, (Except.error ⟨400, message⟩ : Except RequestError (HTTPRequest Str)) = .error e →
      e.status ≤ 411 := fun message h => by
      injection h with h
      rw [← h]
      exact (by decide : 400 ≤ 411)
  unfold parse at h
  split at h
  · exact hplain _ h
  · split at h
    · exact hplain _ h
    · split at h
      · split at h
        · cases ha : List.foldlM (addHeader F) HashMap.empty _ with
          | error e' =>
            rw [ha] at h
            injection h with h
            rw [← h]
            exact addHeaders_status F ha
          | ok headers =>
            rw [ha] at h
            exact ofHeaders_status F h
        · exact hplain _ h
      · exact hplain _ h

variable (request : HTTPRequest Str)

/-- A query item that stands once, as a number. -/
def queryUInt64 (name : String) : Option U64 :=
  match request.query.filter fun item => item.1 = F.text name with
  | [item] => item.2.bind F.uint64
  | _ => none

def hasOnlyQueryItems (names : List String) : Bool :=
  let names := names.map F.text
  names.all (fun name => name ∈ request.query.map Prod.fst) && request.query.all (fun item => item.1 ∈ names) &&
    request.query.length = names.length

/-- The headers that a preflight asks for; none when one of them is empty. -/
def requestedHeaders : Option (List Str) :=
  match request.accessControlRequestHeaders with
  | none => some []
  | some value =>
    let names := (F.split ',' false value).map fun name => F.lowercased (F.trimmedLines name)
    if names.all fun name => !F.isEmpty name then some names else none

def isValidPreflight (cfg : DiskHTTPServerConfiguration Str) : Bool :=
  if request.bodyLength = 0 ∧ request.origin.isSome then
    match request.accessControlRequestMethod.map (fun m => F.uppercased (F.trimmedLines m)), request.requestedHeaders F with
    | some method, some headers =>
      if request.path = cfg.diskPath ∧ method = F.text "HEAD" then request.query.isEmpty && headers.isEmpty
      else if request.path = cfg.diskPath ∧ method = F.text "GET" then
        (request.queryUInt64 F "offset").isSome && (request.queryUInt64 F "length").isSome &&
          request.hasOnlyQueryItems F ["offset", "length"] && headers.isEmpty
      else if request.path = cfg.diskPath ∧ method = F.text "PUT" then
        (request.queryUInt64 F "offset").isSome && request.hasOnlyQueryItems F ["offset"] &&
          headers.all fun header => header = F.text "content-type"
      else if request.path = cfg.flushPath ∧ method = F.text "POST" then request.query.isEmpty && headers.isEmpty
      else false
    | _, _ => false
  else false

end HTTPRequest

/-! ## What is done with a request -/

/-- How a session ends: with a response of its own, with the response to an operation of the store, or with none. -/
inductive Outcome where
  | respond (response : HTTPResponse)
  | store (op : StoreOp)
  | stop

namespace Outcome

def plain (status : ℕ) (message : String) : Outcome := respond ⟨status, asciiBytes message, none, false⟩

def ofError (error : RequestError) : Outcome := plain error.status error.message

end Outcome

/-- `DiskHTTPFailure`: an error that is not the disk's is an I/O failure. -/
def diskFailure : Option DiskError → HTTPResponse
  | some .rangeOutOfBounds => ⟨416, asciiBytes "invalid disk range", none, false⟩
  | some .emptyRange => ⟨400, asciiBytes "invalid disk operation", none, false⟩
  | some .emptyWrite => ⟨400, asciiBytes "invalid disk operation", none, false⟩
  | some .operationTooLarge => ⟨400, asciiBytes "invalid disk operation", none, false⟩
  | _ => ⟨500, asciiBytes "disk I/O failed", none, false⟩

/-- The response to the result of an operation. -/
def StoreOp.response (result : Except (Option DiskError) (List U8)) : StoreOp → HTTPResponse
  | read _ _ =>
    match result with
    | .ok body => ⟨200, body, none, false⟩
    | .error error => diskFailure error
  | _ =>
    match result with
    | .ok _ => ⟨204, [], none, false⟩
    | .error error => diskFailure error

/-- The response of a session, given what the store answers. -/
def Outcome.response (answer : StoreOp → Except (Option DiskError) (List U8)) : Outcome → Option HTTPResponse
  | respond response => some response
  | store op => some (op.response (answer op))
  | stop => none

section perform

variable {Str : Type} [DecidableEq Str] (F : Foundation Str) (cfg : DiskHTTPServerConfiguration Str)

/-- `configuration.accepts(origin:)`. -/
def DiskHTTPServerConfiguration.accepts (origin : Option Str) : Bool := origin.map F.trimmedLines = some cfg.allowedOrigin

def performHead (request : HTTPRequest Str) : Outcome :=
  if request.bodyLength = 0 ∧ request.query.isEmpty then .respond ⟨200, [], some cfg.byteCount, false⟩
  else .plain 400 "invalid HEAD request"

def performGet (request : HTTPRequest Str) : Outcome :=
  match request.queryUInt64 F "offset", request.queryUInt64 F "length" with
  | some offset, some length =>
    if request.bodyLength = 0 ∧ length.toNat < 2 ^ 63 ∧ request.hasOnlyQueryItems F ["offset", "length"] then
      .store (.read offset length.toNat)
    else .plain 400 "offset and length are required"
  | _, _ => .plain 400 "offset and length are required"

def performPut (request : HTTPRequest Str) (body : List U8) : Outcome :=
  match request.queryUInt64 F "offset" with
  | some offset =>
    if 0 < request.bodyLength ∧ request.hasOnlyQueryItems F ["offset"] then .store (.write offset body)
    else .plain 400 "offset and body are required"
  | none => .plain 400 "offset and body are required"

/-- What is done with a request whose body has been received. -/
def perform (request : HTTPRequest Str) (body : List U8) : Outcome :=
  if ¬ (request.origin = none ∨ cfg.accepts F request.origin) then .plain 403 "origin rejected"
  else if ¬ (request.path = cfg.diskPath ∨ request.path = cfg.flushPath) then .plain 404 "route not found"
  else if request.method = F.text "OPTIONS" then
    if request.isValidPreflight F cfg then .respond ⟨204, [], none, true⟩ else .plain 400 "invalid preflight request"
  else if request.path = cfg.flushPath then
    if request.method = F.text "POST" ∧ request.bodyLength = 0 ∧ request.query.isEmpty then .store .flush
    else .plain 405 "method not allowed"
  else if request.method = F.text "HEAD" then performHead cfg request
  else if request.method = F.text "GET" then performGet F request
  else if request.method = F.text "PUT" then performPut F request body
  else .plain 405 "method not allowed"

/-- What performing a request ends with. -/
inductive Performed (body : List U8) : Outcome → Prop
  | plain (status : ℕ) (message : String) (hs : status ≤ 411)
    (h : asciiBytes message ≠ asciiBytes "request body exceeds content length") : Performed body (.plain status message)
  | empty (status : ℕ) (diskSize : Option U64) (preflight : Bool) (hs : status ≤ 411) :
    Performed body (.respond ⟨status, [], diskSize, preflight⟩)
  | flush : Performed body (.store .flush)
  | read (offset : U64) (length : ℕ) : Performed body (.store (.read offset length))
  | write (offset : U64) : Performed body (.store (.write offset body))

theorem performed_get (request : HTTPRequest Str) (body : List U8) : Performed body (performGet F request) := by
  unfold performGet
  split
  · split
    · exact .read _ _
    · exact .plain _ _ (by decide) (by decide)
  · exact .plain _ _ (by decide) (by decide)

theorem performed_put (request : HTTPRequest Str) (body : List U8) : Performed body (performPut F request body) := by
  unfold performPut
  split
  · split
    · exact .write _
    · exact .plain _ _ (by decide) (by decide)
  · exact .plain _ _ (by decide) (by decide)

theorem performed (request : HTTPRequest Str) (body : List U8) : Performed body (perform F cfg request body) := by
  unfold perform performHead
  split_ifs
  all_goals first
    | exact .plain _ _ (by decide) (by decide)
    | exact .empty _ _ _ (by decide)
    | exact .flush
    | exact performed_get F request body
    | exact performed_put F request body

/-- A performed request is never refused for its framing. -/
theorem perform_ne (request : HTTPRequest Str) (body : List U8) :
    perform F cfg request body ≠ .plain 400 "request body exceeds content length" := by
  have hp := performed F cfg request body
  generalize perform F cfg request body = o at hp ⊢
  cases hp with
  | plain status message hs hne =>
    intro h
    injection h with h
    injection h with _ h
    exact hne h
  | empty status diskSize preflight hs =>
    intro h
    injection h with h
    injection h with _ h
    exact absurd h (by decide)
  | flush => exact fun h => by cases h
  | read offset length => exact fun h => by cases h
  | write offset => exact fun h => by cases h

/-- Nor for the size of its head. -/
theorem perform_status {request : HTTPRequest Str} {body : List U8} {response : HTTPResponse}
    (h : perform F cfg request body = .respond response) : response.status ≤ 411 := by
  have hp := performed F cfg request body
  rw [h] at hp
  generalize ho : Outcome.respond response = o at hp
  cases hp with
  | plain status message hs hne =>
    injection ho with ho
    rw [ho]
    exact hs
  | empty status diskSize preflight hs =>
    injection ho with ho
    rw [ho]
    exact hs
  | flush => cases ho
  | read offset length => cases ho
  | write offset => cases ho

/-- A write carries the body of its request. -/
theorem perform_write {request : HTTPRequest Str} {body data : List U8} {offset : U64}
    (h : perform F cfg request body = .store (.write offset data)) : data = body := by
  have hp := performed F cfg request body
  rw [h] at hp
  cases hp
  rfl

end perform

end Lish
