import Lish.Core.Arch
/-!
# ConnectRequest — the request that opens a tunnel

The head of a CONNECT request, as the proxy parses it: the target it names, or the status of the response that rejects it.
-/
namespace Lish

structure ConnectTarget where
  host : List Char
  port : ℕ
  deriving DecidableEq

structure ConnectRequestError where
  status : ℕ
  reason : String
  deriving DecidableEq

namespace ConnectRequestError

def badRequest : ConnectRequestError := ⟨400, "Bad Request"⟩

def methodNotAllowed : ConnectRequestError := ⟨405, "Method Not Allowed"⟩

def versionNotSupported : ConnectRequestError := ⟨505, "HTTP Version Not Supported"⟩

def forbidden : ConnectRequestError := ⟨403, "Forbidden"⟩

end ConnectRequestError

namespace ConnectRequestParser

open ConnectRequestError

def textByte (b : U8) : Bool := b = 9 || b = 10 || b = 13 || (decide (32 ≤ b) && decide (b ≤ 126))

def isAlphaNumeric (c : Char) : Bool := c.isDigit || c.isUpper || c.isLower

def isHeaderNameByte (c : Char) : Bool := isAlphaNumeric c || "!#$%&'*+-.^_`|~".toList.contains c

/-- The lines of a text, split at each CRLF. -/
def splitLines : List Char → List (List Char)
  | [] => [[]]
  | '\r' :: '\n' :: rest => [] :: splitLines rest
  | c :: rest =>
    match splitLines rest with
    | [] => [[c]]
    | l :: ls => (c :: l) :: ls

def decimal (ds : List Char) : Option ℕ :=
  if ds ≠ [] ∧ ds.all Char.isDigit then some (ds.foldl (fun n c => 10 * n + (c.toNat - 48)) 0) else none

/-- A 16-bit number in decimal, with a sign or without. -/
def parseUInt16 (s : List Char) : Option ℕ :=
  match s with
  | '+' :: ds => (decimal ds).filter (· < 2 ^ 16)
  | '-' :: ds => (decimal ds).filter (· = 0)
  | ds => (decimal ds).filter (· < 2 ^ 16)

def isOctet (ds : List Char) : Bool := (decimal ds).any (· ≤ 255) && (ds.length = 1 || ds.head? ≠ some '0')

def isValidIPv4Address (value : List Char) : Bool := (value.splitOn '.').length = 4 && (value.splitOn '.').all isOctet

def isValidLabel (label : List Char) : Bool :=
  decide (label.length ≤ 63) && label.head?.any isAlphaNumeric && label.getLast?.any isAlphaNumeric &&
    label.all fun c => isAlphaNumeric c || c = '-'

def isValidHostname (value : List Char) : Bool :=
  let hostname := if value.getLast? = some '.' then value.dropLast else value
  decide (hostname ≠ []) && decide (hostname.length ≤ 253) && (hostname.splitOn '.').all isValidLabel

def parseAuthority (authority : List Char) : Except ConnectRequestError ConnectTarget :=
  if authority = [] ∨ '@' ∈ authority ∨ authority.head? = some '[' then .error badRequest
  else
    match authority.splitOn ':' with
    | [host, port] =>
      match parseUInt16 port with
      | none => .error badRequest
      | some port =>
        if port = 0 ∨ !(isValidIPv4Address host || isValidHostname host) then .error badRequest else .ok ⟨host, port⟩
    | _ => .error badRequest

def isBlank (c : Char) : Bool := c = ' ' || c = '\t'

def trim (s : List Char) : List Char := ((s.dropWhile isBlank).reverse.dropWhile isBlank).reverse

def lowercased (s : List Char) : List Char := s.map Char.toLower

/-- The values of the host headers after one more header line. -/
def headerLine (hosts : List (List Char)) (line : List Char) : Except ConnectRequestError (List (List Char)) :=
  if line = [] ∨ line.head?.any isBlank ∨ ':' ∉ line then .error badRequest
  else
    let name := line.takeWhile (· ≠ ':')
    let value := trim (line.drop (name.length + 1))
    if name = [] ∨ !name.all isHeaderNameByte then .error badRequest
    else if lowercased name = "host".toList then .ok (hosts ++ [value])
    else if lowercased name = "content-length".toList ∧ value ≠ "0".toList then .error badRequest
    else if lowercased name = "transfer-encoding".toList then .error badRequest
    else .ok hosts

def parse (data : List U8) (allowedPorts : List ℕ) : Except ConnectRequestError ConnectTarget :=
  if !data.all textByte then .error badRequest
  else
    match splitLines (data.map fun b => Char.ofNat b.toNat) with
    | [] => .error badRequest
    | requestLine :: headers =>
      match requestLine.splitOn ' ' with
      | [method, authority, version] =>
        if method ≠ "CONNECT".toList then .error methodNotAllowed
        else if version ≠ "HTTP/1.1".toList then .error versionNotSupported
        else do
          let target ← parseAuthority authority
          if target.port ∉ allowedPorts then throw forbidden
          let hosts ← headers.foldlM headerLine []
          match hosts with
          | [host] => if lowercased host = lowercased authority then pure target else throw badRequest
          | _ => throw badRequest
      | _ => .error badRequest

theorem bind_ok {ε α β : Type} {x : Except ε α} {f : α → Except ε β} {b : β} (h : x >>= f = .ok b) : ∃ a, x = .ok a ∧
    f a = .ok b := by
  cases x with
  | error e => cases h
  | ok a => exact ⟨a, rfl, h⟩

/-- The port of a parsed target is one of those allowed. -/
theorem parse_port {data : List U8} {allowedPorts : List ℕ} {target : ConnectTarget} (h : parse data allowedPorts = .ok target) :
    target.port ∈ allowedPorts := by
  unfold parse at h
  split at h
  · cases h
  split at h
  · cases h
  split at h
  · split at h
    · cases h
    split at h
    · cases h
    obtain ⟨t, -, h⟩ := bind_ok h
    split at h
    · cases h
    rename_i hp
    obtain ⟨hosts, -, h⟩ := bind_ok h
    split at h
    · split at h
      · cases h
        exact not_not.1 hp
      · cases h
    · cases h
  · cases h

end ConnectRequestParser

/-! ## The end of a request head -/

def headEnd : List U8 := [13, 10, 13, 10]

/-- The head of a request and what follows it, at the first blank line. -/
def splitHead : List U8 → Option (List U8 × List U8)
  | [] => none
  | b :: rest =>
    if headEnd <+: b :: rest then some ([], (b :: rest).drop 4)
    else (splitHead rest).map fun s => (b :: s.1, s.2)

theorem splitHead_eq {a h r : List U8} (hs : splitHead a = some (h, r)) : a = h ++ (headEnd ++ r) := by
  induction a generalizing h with
  | nil => cases hs
  | cons x a ih =>
    unfold splitHead at hs
    split at hs
    · rename_i hp
      obtain ⟨t, ht⟩ := hp
      cases hs
      rw [← ht]
      rfl
    · obtain ⟨⟨h', r'⟩, hs', he⟩ := Option.map_eq_some_iff.1 hs
      cases he
      exact congrArg (List.cons x) (ih hs')

/-- Where a head ends does not depend on what follows. -/
theorem splitHead_append {a h r : List U8} (hs : splitHead a = some (h, r)) (b : List U8) : splitHead (a ++ b) = some (h,
    r ++ b) := by
  induction a generalizing h with
  | nil => cases hs
  | cons x a ih =>
    rw [List.cons_append]
    unfold splitHead at hs ⊢
    split at hs
    · rename_i hp
      obtain ⟨t, ht⟩ := hp
      cases hs
      rw [if_pos ⟨t ++ b, by rw [← List.cons_append, ← ht, List.append_assoc]⟩, ← List.cons_append, ← ht]
      rfl
    · rename_i hp
      obtain ⟨⟨h', r'⟩, hs', he⟩ := Option.map_eq_some_iff.1 hs
      cases he
      have hlen : headEnd.length ≤ (x :: a).length := by
        rw [splitHead_eq hs', List.length_cons, List.length_append, List.length_append]
        omega
      have hn : ¬headEnd <+: x :: (a ++ b) := fun hq =>
        hp (List.prefix_of_prefix_length_le hq (List.prefix_append (x :: a) b) hlen)
      rw [if_neg hn, ih hs']
      rfl

example : ConnectRequestParser.parse (asciiBytes "CONNECT a.b:443 HTTP/1.1\r\nHost: A.b:443") [443] = .ok ⟨"a.b".toList, 443⟩
  := by decide

end Lish
