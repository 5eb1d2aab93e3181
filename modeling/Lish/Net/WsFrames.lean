import Lish.Core.Arch
import Lish.Prog.Framing
/-!
# WsFrames — the frames of a WebSocket

One frame as it lies in the bytes received, and as the relay writes its own.
-/
namespace Lish

structure WsFrame where
  fin : Bool
  opcode : ℕ
  masked : Bool
  payload : List U8
  deriving DecidableEq

namespace WsFrame

/-- `b ^ mask[i % 4]`. -/
def applyMask (mask payload : List U8) : List U8 := payload.mapIdx fun i b => b ^^^ mask.getD (i % 4) 0

/-- A number from its bytes, the highest first. -/
def ofBeBytes (bytes : List U8) : ℕ := bytes.foldl (fun n b => 256 * n + b.toNat) 0

/-- `to_be_bytes` of a number of `n` bytes. -/
def toBeBytes : ℕ → ℕ → List U8
  | 0, _ => []
  | n + 1, v => toBeBytes n (v / 256) ++ [BitVec.ofNat 8 v]

/-- The length of the payload, and where the header goes on; none while the length has not fully arrived. -/
def lengthField (b : List U8) (len7 : ℕ) : Option (ℕ × ℕ) :=
  if len7 = 126 then if 4 ≤ b.length then some (ofBeBytes ((b.drop 2).take 2), 4) else none
  else if len7 = 127 then if 10 ≤ b.length then some (ofBeBytes ((b.drop 2).take 8), 10) else none
  else some (len7, 2)

/-- The payload and what follows it.  The end of the payload wraps: a slice that ends before it starts is a panic. -/
def payloadAt (b : List U8) (b0 : U8) (payloadLen off : ℕ) (mask : Option (List U8)) : Head U8 WsFrame :=
  let stop := (off + payloadLen) % 2 ^ 64
  if b.length < stop then .incomplete
  else if stop < off then .broken
  else
    let payload := (b.drop off).take (stop - off)
    .item ⟨b0 &&& 0x80 ≠ 0, (b0 &&& 0x0f).toNat, mask.isSome, (mask.map fun m => applyMask m payload).getD payload⟩ (b.drop stop)

/-- What the bytes received begin with. -/
def parse (b : List U8) : Head U8 WsFrame :=
  match b with
  | b0 :: b1 :: _ =>
    match lengthField b (b1 &&& 0x7f).toNat with
    | none => .incomplete
    | some (payloadLen, off) =>
      if b1 &&& 0x80 ≠ 0 then
        if b.length < off + 4 then .incomplete else payloadAt b b0 payloadLen (off + 4) (some ((b.drop off).take 4))
      else payloadAt b b0 payloadLen off none
  | _ => .incomplete

/-- The four bytes that a mask uses. -/
def maskBytes (mask : Fin 4 → U8) : List U8 := [mask 0, mask 1, mask 2, mask 3]

/-- The length of a frame that the relay sends, with the bit that says that it is masked. -/
def lengthBytes (len : ℕ) : List U8 :=
  if len < 126 then [0x80#8 ||| BitVec.ofNat 8 len]
  else if len ≤ 65535 then (0x80#8 ||| 126#8) :: toBeBytes 2 len
  else (0x80#8 ||| 127#8) :: toBeBytes 8 len

/-- The message that `send` writes. -/
def message (mask : Fin 4 → U8) (payload : List U8) : List U8 :=
  0x82#8 :: (lengthBytes payload.length ++ (maskBytes mask ++ applyMask (maskBytes mask) payload))

/-- The message that `send_control` writes. -/
def control (first : U8) (mask : Fin 4 → U8) (payload : List U8) : List U8 :=
  first :: (0x80#8 ||| BitVec.ofNat 8 (min payload.length 125)) :: (maskBytes mask ++ applyMask (maskBytes mask) payload)

/-! ## Frames in a longer buffer -/

theorem lengthField_append {b : List U8} {len7 : ℕ} {p : ℕ × ℕ} (more : List U8) (h : lengthField b len7 = some p) :
    lengthField (b ++ more) len7 = some p := by
  unfold lengthField at h ⊢
  rw [List.length_append]
  have htake : ∀ n, n + 2 ≤ b.length → ((b ++ more).drop 2).take n = (b.drop 2).take n := fun n hn => by
    rw [List.drop_append_of_le_length (by omega), List.take_append_of_le_length (by rw [List.length_drop]; omega)]
  by_cases h6 : len7 = 126
  · rw [if_pos h6] at h ⊢
    split at h
    · rw [if_pos (by omega), htake 2 (by omega)]
      exact h
    · cases h
  · rw [if_neg h6] at h ⊢
    by_cases h7 : len7 = 127
    · rw [if_pos h7] at h ⊢
      split at h
      · rw [if_pos (by omega), htake 8 (by omega)]
        exact h
      · cases h
    · rw [if_neg h7] at h ⊢
      exact h

theorem lengthField_bound {b : List U8} {len7 payloadLen off : ℕ} (h : lengthField b len7 = some (payloadLen, off)) :
    2 ≤ off ∧ (off ≤ b.length ∨ off = 2) := by
  unfold lengthField at h
  split at h
  · split at h
    · cases h
      omega
    · cases h
  · split at h
    · split at h
      · cases h
        omega
      · cases h
    · cases h
      omega

section payload

variable {b : List U8} {b0 : U8} {payloadLen off : ℕ} {mask : Option (List U8)}

theorem payloadAt_item_append (hoff : off ≤ b.length) {f : WsFrame} {rest : List U8} (more : List U8)
    (h : payloadAt b b0 payloadLen off mask = .item f rest) :
    payloadAt (b ++ more) b0 payloadLen off mask = .item f (rest ++ more) := by
  unfold payloadAt at h ⊢
  dsimp only at h ⊢
  split at h
  · cases h
  · rename_i hlen
    split at h
    · cases h
    · rename_i hstop
      cases h
      have htake : ((b ++ more).drop off).take ((off + payloadLen) % 2 ^ 64 - off) =
          (b.drop off).take ((off + payloadLen) % 2 ^ 64 - off) := by
        rw [List.drop_append_of_le_length hoff, List.take_append_of_le_length (by rw [List.length_drop]; omega)]
      rw [if_neg (by rw [List.length_append]; omega), if_neg hstop, htake, List.drop_append_of_le_length (by omega)]

theorem payloadAt_broken_append (more : List U8) (h : payloadAt b b0 payloadLen off mask = .broken) :
    payloadAt (b ++ more) b0 payloadLen off mask = .broken := by
  unfold payloadAt at h ⊢
  dsimp only at h ⊢
  split at h
  · cases h
  · rename_i hlen
    split at h
    · rename_i hstop
      rw [if_neg (by rw [List.length_append]; omega), if_pos hstop]
    · cases h

theorem payloadAt_shorter (hoff : 0 < off) {f : WsFrame} {rest : List U8}
    (h : payloadAt b b0 payloadLen off mask = .item f rest) : rest.length < b.length := by
  unfold payloadAt at h
  dsimp only at h
  split at h
  · cases h
  · split at h
    · cases h
    · cases h
      rw [List.length_drop]
      omega

end payload

/-- What `parse` does with the bytes after the first two. -/
def parseAt (b : List U8) (b0 b1 : U8) : Head U8 WsFrame :=
  match lengthField b (b1 &&& 0x7f).toNat with
  | none => .incomplete
  | some (payloadLen, off) =>
    if b1 &&& 0x80 ≠ 0 then
      if b.length < off + 4 then .incomplete else payloadAt b b0 payloadLen (off + 4) (some ((b.drop off).take 4))
    else payloadAt b b0 payloadLen off none

theorem parse_cons (b0 b1 : U8) (b : List U8) : parse (b0 :: b1 :: b) = parseAt (b0 :: b1 :: b) b0 b1 := rfl

theorem parse_cases {b : List U8} (h : parse b ≠ .incomplete) : ∃ b0 b1 t, b = b0 :: b1 :: t := by
  cases b with
  | nil => exact absurd rfl h
  | cons b0 b =>
    cases b with
    | nil => exact absurd rfl h
    | cons b1 t => exact ⟨b0, b1, t, rfl⟩

/-- The header of a whole frame: its length is there, its mask too, and the payload is looked for after it. -/
theorem parseAt_spec {b : List U8} {b0 b1 : U8} (hlen : 2 ≤ b.length) (h : parseAt b b0 b1 ≠ .incomplete) :
    ∃ payloadLen off mask, 0 < off ∧ off ≤ b.length ∧ ∀ more,
      parseAt (b ++ more) b0 b1 = payloadAt (b ++ more) b0 payloadLen off mask := by
  unfold parseAt at h
  cases hl : lengthField b (b1 &&& 0x7f).toNat with
  | none =>
    rw [hl] at h
    exact absurd rfl h
  | some p =>
    obtain ⟨payloadLen, off⟩ := p
    have hb := lengthField_bound hl
    rw [hl] at h
    dsimp only at h
    split at h
    · rename_i hm
      split at h
      · exact absurd rfl h
      · rename_i hoff
        refine ⟨payloadLen, off + 4, some ((b.drop off).take 4), by omega, by omega, fun more => ?_⟩
        have hmask : ((b ++ more).drop off).take 4 = (b.drop off).take 4 := by
          rw [List.drop_append_of_le_length (by omega), List.take_append_of_le_length (by rw [List.length_drop]; omega)]
        unfold parseAt
        rw [lengthField_append more hl]
        dsimp only
        rw [if_pos hm, if_neg (by rw [List.length_append]; omega), hmask]
    · rename_i hm
      refine ⟨payloadLen, off, none, by omega, by omega, fun more => ?_⟩
      unfold parseAt
      rw [lengthField_append more hl]
      dsimp only
      rw [if_neg hm]

theorem parse_spec {b : List U8} (h : parse b ≠ .incomplete) :
    ∃ b0 payloadLen off mask, 0 < off ∧ off ≤ b.length ∧ ∀ more, parse (b ++ more) = payloadAt (b ++ more) b0 payloadLen off mask := by
  obtain ⟨b0, b1, t, rfl⟩ := parse_cases h
  rw [parse_cons] at h
  obtain ⟨payloadLen, off, mask, hpos, hoff, hall⟩ :=
    parseAt_spec (by rw [List.length_cons, List.length_cons]; omega) h
  exact ⟨b0, payloadLen, off, mask, hpos, hoff, hall⟩

/-- **The frames of a stream.** -/
def framing : Framing U8 WsFrame where
  head := parse
  shorter {b a rest} h := by
    obtain ⟨b0, payloadLen, off, mask, hpos, -, hall⟩ := parse_spec (by rw [h]; exact fun hc => by cases hc)
    have hb := hall []
    rw [List.append_nil, h] at hb
    exact payloadAt_shorter hpos hb.symm
  item_append {b a rest} more h := by
    obtain ⟨b0, payloadLen, off, mask, -, hoff, hall⟩ := parse_spec (by rw [h]; exact fun hc => by cases hc)
    have hb := hall []
    rw [List.append_nil, h] at hb
    rw [hall more]
    exact payloadAt_item_append hoff more hb.symm
  broken_append {b} more h := by
    obtain ⟨b0, payloadLen, off, mask, -, hoff, hall⟩ := parse_spec (by rw [h]; exact fun hc => by cases hc)
    have hb := hall []
    rw [List.append_nil, h] at hb
    rw [hall more]
    exact payloadAt_broken_append more hb.symm

/-! ## The frames that the relay writes -/

theorem applyMask_applyMask (mask payload : List U8) : applyMask mask (applyMask mask payload) = payload := by
  unfold applyMask
  rw [List.mapIdx_mapIdx]
  have hid : (fun i => (fun b : U8 => b ^^^ mask.getD (i % 4) 0) ∘ fun b : U8 => b ^^^ mask.getD (i % 4) 0) =
      fun _ b => b := by
    funext i b
    rw [Function.comp_apply, BitVec.xor_assoc, BitVec.xor_self, BitVec.xor_zero]
  rw [hid]
  induction payload with
  | nil => rfl
  | cons b payload ih =>
    rw [List.mapIdx_cons]
    exact congrArg (b :: ·) ih

theorem length_applyMask (mask payload : List U8) : (applyMask mask payload).length = payload.length := List.length_mapIdx

theorem length_toBeBytes (n v : ℕ) : (toBeBytes n v).length = n := by
  induction n generalizing v with
  | zero => rfl
  | succ n ih => rw [toBeBytes, List.length_append, ih, List.length_singleton]

/-- **A number is read back from its bytes.** -/
theorem ofBeBytes_toBeBytes (n v : ℕ) (h : v < 256 ^ n) : ofBeBytes (toBeBytes n v) = v := by
  induction n generalizing v with
  | zero =>
    rw [pow_zero] at h
    exact (Nat.lt_one_iff.1 h).symm
  | succ n ih =>
    have hdiv : v / 256 < 256 ^ n := Nat.div_lt_of_lt_mul (by rw [← pow_succ']; exact h)
    have hfold := ih (v / 256) hdiv
    unfold ofBeBytes at hfold
    rw [toBeBytes, ofBeBytes, List.foldl_append, hfold, List.foldl_cons, List.foldl_nil, BitVec.toNat_ofNat]
    exact Nat.div_add_mod v 256

/-- The header of a masked frame and its payload are read back, whatever follows. -/
theorem parse_masked {b0 b1 : U8} {len : List U8} {mask : Fin 4 → U8} {payload written rest : List U8}
    (hmask : b1 &&& 0x80 ≠ 0)
    (hlen : lengthField (b0 :: b1 :: (len ++ (maskBytes mask ++ written))) (b1 &&& 0x7f).toNat =
      some (payload.length, 2 + len.length))
    (hwritten : written = applyMask (maskBytes mask) payload ++ rest) (hfit : payload.length + 14 < 2 ^ 64) (h8 : len.length ≤ 8) :
    parse (b0 :: b1 :: (len ++ (maskBytes mask ++ written))) =
      .item ⟨b0 &&& 0x80 ≠ 0, (b0 &&& 0x0f).toNat, true, payload⟩ rest := by
  have hmasklen : (maskBytes mask).length = 4 := rfl
  have hwlen : written.length = payload.length + rest.length := by
    rw [hwritten, List.length_append, length_applyMask]
  have hall : (b0 :: b1 :: (len ++ (maskBytes mask ++ written))).length = 2 + len.length + 4 + payload.length + rest.length := by
    rw [List.length_cons, List.length_cons, List.length_append, List.length_append, hmasklen, hwlen]
    omega
  have hheader : ∀ n, (b0 :: b1 :: (len ++ (maskBytes mask ++ written))).drop (2 + len.length + n) =
      (maskBytes mask ++ written).drop n := fun n => by
    have hpre : (b0 :: b1 :: len).length = 2 + len.length := Nat.add_comm _ 2
    rw [← hpre]
    exact List.drop_length_add_append n
  have hstop : (2 + len.length + 4 + payload.length) % 2 ^ 64 = 2 + len.length + (4 + payload.length) := by
    rw [Nat.mod_eq_of_lt (by omega), Nat.add_assoc _ 4]
  have hmaskat : ((b0 :: b1 :: (len ++ (maskBytes mask ++ written))).drop (2 + len.length)).take 4 = maskBytes mask := by
    have h := hheader 0
    rw [Nat.add_zero, List.drop_zero] at h
    rw [h]
    exact List.take_left' hmasklen
  have hpayload : (((maskBytes mask ++ written).drop 4).take payload.length) = applyMask (maskBytes mask) payload := by
    rw [List.drop_left' hmasklen, hwritten, List.take_left' (length_applyMask _ _)]
  have hrest : (maskBytes mask ++ written).drop (4 + payload.length) = rest := by
    rw [← hmasklen, List.drop_length_add_append, hwritten, List.drop_left' (length_applyMask _ _)]
  rw [parse_cons]
  unfold parseAt
  rw [hlen]
  dsimp only
  rw [if_pos hmask, if_neg (by omega)]
  unfold payloadAt
  dsimp only
  rw [hstop, if_neg (by omega), if_neg (by omega), hheader, hheader, hmaskat, hrest]
  have htake : 2 + len.length + (4 + payload.length) - (2 + len.length + 4) = payload.length := by omega
  rw [htake, hpayload, Option.map_some, Option.getD_some, applyMask_applyMask, Option.isSome_some]

/-- A length of seven bits beside the bit of the mask. -/
theorem short_length {n : ℕ} (h : n < 128) :
    (0x80#8 ||| BitVec.ofNat 8 n) &&& 0x80 ≠ 0 ∧ ((0x80#8 ||| BitVec.ofNat 8 n) &&& 0x7f).toNat = n := by
  have hall : ∀ i : Fin 128, (0x80#8 ||| BitVec.ofNat 8 i.val) &&& 0x80 ≠ 0 ∧
      ((0x80#8 ||| BitVec.ofNat 8 i.val) &&& 0x7f).toNat = i.val := by decide
  exact hall ⟨n, h⟩

/-- A length of `n` bytes after the first two. -/
theorem lengthField_long {b0 b1 : U8} {n v : ℕ} (rest : List U8) (hv : v < 256 ^ n) :
    ofBeBytes (((b0 :: b1 :: (toBeBytes n v ++ rest)).drop 2).take n) = v ∧
      2 + n ≤ (b0 :: b1 :: (toBeBytes n v ++ rest)).length := by
  have hlen := length_toBeBytes n v
  refine ⟨?_, ?_⟩
  · have htake : ((b0 :: b1 :: (toBeBytes n v ++ rest)).drop 2).take n = toBeBytes n v := List.take_left' hlen
    rw [htake, ofBeBytes_toBeBytes n v hv]
  · rw [List.length_cons, List.length_cons, List.length_append, hlen]
    omega

/-- **A message that the relay sends** parses back as one masked binary frame with its payload. -/
theorem parse_message (mask : Fin 4 → U8) {payload : List U8} (h : payload.length < 2 ^ 63) :
    parse (message mask payload) = .item ⟨true, 2, true, payload⟩ [] := by
  have hfit : payload.length + 14 < 2 ^ 64 := by omega
  have hwritten : applyMask (maskBytes mask) payload = applyMask (maskBytes mask) payload ++ [] := (List.append_nil _).symm
  unfold message lengthBytes
  split
  · rename_i hlt
    obtain ⟨hm, hn⟩ := short_length (by omega : payload.length < 128)
    refine @parse_masked _ _ [] mask payload _ _ hm ?_ hwritten hfit (Nat.zero_le 8)
    rw [hn]
    unfold lengthField
    rw [if_neg (by omega), if_neg (by omega)]
    rfl
  · split
    · rename_i hge hle
      have hm : (0x80#8 ||| 126#8) &&& 0x80 ≠ 0 := by decide
      have hl := @lengthField_long 0x82#8 (0x80#8 ||| 126#8) 2 payload.length
        (maskBytes mask ++ applyMask (maskBytes mask) payload) (by omega)
      refine parse_masked hm ?_ hwritten hfit (by rw [length_toBeBytes]; decide)
      unfold lengthField
      rw [if_pos (by decide), if_pos hl.2, hl.1, length_toBeBytes]
    · have hm : (0x80#8 ||| 127#8) &&& 0x80 ≠ 0 := by decide
      have hl := @lengthField_long 0x82#8 (0x80#8 ||| 127#8) 8 payload.length
        (maskBytes mask ++ applyMask (maskBytes mask) payload) (by omega)
      refine parse_masked hm ?_ hwritten hfit (by rw [length_toBeBytes])
      unfold lengthField
      rw [if_neg (by decide), if_pos (by decide), if_pos hl.2, hl.1, length_toBeBytes]

theorem applyMask_take (mask payload : List U8) (n : ℕ) :
    ∃ rest, applyMask mask payload = applyMask mask (payload.take n) ++ rest ∧ rest.length = payload.length - n := by
  refine ⟨(applyMask mask payload).drop n, ?_, ?_⟩
  · have htake : (applyMask mask payload).take n = applyMask mask (payload.take n) := by
      unfold applyMask
      conv => lhs; rw [← List.take_append_drop n payload, List.mapIdx_append]
      by_cases hn : n ≤ payload.length
      · rw [List.take_left' (by rw [List.length_mapIdx, List.length_take_of_le hn])]
      · rw [List.drop_of_length_le (by omega), List.mapIdx_nil, List.append_nil, List.take_of_length_le]
        rw [List.length_mapIdx, List.length_take]
        omega
    rw [← htake, List.take_append_drop]
  · rw [List.length_drop, length_applyMask]

/-- A control message is read as the first 125 bytes of its payload, and what is left. -/
theorem parse_control (first : U8) (mask : Fin 4 → U8) (payload : List U8) :
    ∃ rest, parse (control first mask payload) =
      .item ⟨first &&& 0x80 ≠ 0, (first &&& 0x0f).toNat, true, payload.take 125⟩ rest ∧
      rest.length = payload.length - 125 := by
  obtain ⟨rest, hw, hlen⟩ := applyMask_take (maskBytes mask) payload 125
  refine ⟨rest, ?_, hlen⟩
  have htake : (payload.take 125).length = min payload.length 125 := by
    rw [List.length_take, Nat.min_comm]
  obtain ⟨hm, hn⟩ := short_length (by omega : min payload.length 125 < 128)
  unfold control
  refine @parse_masked _ _ [] mask (payload.take 125) _ _ hm ?_ hw (by rw [htake]; omega) (Nat.zero_le 8)
  rw [hn]
  unfold lengthField
  rw [if_neg (by omega), if_neg (by omega), htake]
  rfl

/-- **A control message is one frame** exactly when its payload has at most 125 bytes. -/
theorem parse_control_iff {first : U8} {mask : Fin 4 → U8} {payload : List U8} :
    parse (control first mask payload) = .item ⟨first &&& 0x80 ≠ 0, (first &&& 0x0f).toNat, true, payload⟩ [] ↔
      payload.length ≤ 125 := by
  obtain ⟨rest, hp, hlen⟩ := parse_control first mask payload
  rw [hp]
  constructor
  · intro h
    injection h with _ hrest
    rw [hrest, List.length_nil] at hlen
    omega
  · intro h
    rw [List.take_of_length_le h, List.length_eq_zero_iff.1 (by omega : rest.length = 0)]

end WsFrame

end Lish
