import Lish.System.DtbParse
/-!
# DtbRoundTrip — what the reader finds in the builder's blob

The structure block is the calls in a row, each with the offset that the finished table has for its name; the reader takes them
one by one.
-/
namespace Lish

open ByteReader

/-! ## Balanced calls are those of a tree -/

namespace FdtCall

theorem closes_zero (calls : List FdtCall) : closes 0 calls = calls.isEmpty := by
  cases calls <;> rfl

/-- Calls that close the open nodes begin with all that the innermost one holds. -/
theorem body_of_closes {depth : ℕ} {calls : List FdtCall} (h : closes (depth + 1) calls = true) :
    ∃ body rest, calls = FdtBody.calls body ++ .endNode :: rest ∧ closes depth rest = true := by
  -- the rest of the calls is shorter, whatever the depth
  induction hn : calls.length using Nat.strong_induction_on generalizing depth calls with
  | _ n ih =>
    cases calls with
    | nil => cases h
    | cons c calls =>
      rw [List.length_cons] at hn
      cases c with
      | beginNode name =>
        have hcloses : closes (depth + 2) calls = true := h
        obtain ⟨body, rest, rfl, hrest⟩ := ih calls.length (by omega) hcloses rfl
        rw [List.length_append, List.length_cons] at hn
        obtain ⟨body', rest', rfl, hrest'⟩ := ih rest.length (by omega) hrest rfl
        refine ⟨.node name body body', rest', ?_, hrest'⟩
        simp only [FdtBody.calls, List.cons_append, List.append_assoc]
      | prop name data =>
        have hcloses : closes (depth + 1) calls = true := h
        obtain ⟨body, rest, rfl, hrest⟩ := ih calls.length (by omega) hcloses rfl
        exact ⟨.prop ⟨name, data⟩ body, rest, rfl, hrest⟩
      | endNode => exact ⟨.done, calls, rfl, h⟩

/-- **Balanced calls** with one root are the calls of a tree. -/
theorem tree_of_balanced {calls : List FdtCall} (h : balanced calls = true) : ∃ tree : FdtTree FdtProp, tree.calls = calls := by
  cases calls with
  | nil => cases h
  | cons c calls =>
    cases c with
    | beginNode name =>
      have hcloses : closes (0 + 1) calls = true := h
      obtain ⟨body, rest, rfl, hrest⟩ := body_of_closes hcloses
      rw [closes_zero, List.isEmpty_iff] at hrest
      exact ⟨⟨name, body⟩, by rw [hrest]; rfl⟩
    | prop name data => cases h
    | endNode => cases h

end FdtCall

/-- The calls of a node up to its end determine what it holds. -/
theorem FdtBody.calls_injective (body other : FdtBody FdtProp) (rest rest' : List FdtCall)
    (h : body.calls ++ .endNode :: rest = other.calls ++ .endNode :: rest') : body = other ∧ rest = rest' := by
  induction body generalizing other rest rest' with
  | done =>
    cases other with
    | done => exact ⟨rfl, (List.cons.inj h).2⟩
    | prop q more => cases (List.cons.inj h).1
    | node name body' more => cases (List.cons.inj h).1
  | prop p more ih =>
    cases other with
    | done => cases (List.cons.inj h).1
    | prop q more' =>
      obtain ⟨hcall, hcalls⟩ := List.cons.inj h
      obtain ⟨rfl, rfl⟩ := ih more' rest rest' hcalls
      obtain ⟨hname, hdata⟩ := FdtCall.prop.inj hcall
      cases p
      cases q
      cases hname
      cases hdata
      exact ⟨rfl, rfl⟩
    | node name body' more' => cases (List.cons.inj h).1
  | node name body more ihb ihr =>
    cases other with
    | done => cases (List.cons.inj h).1
    | prop q more' => cases (List.cons.inj h).1
    | node name' body' more' =>
      obtain ⟨hcall, hcalls⟩ := List.cons.inj h
      rw [List.append_eq, List.append_eq, List.append_assoc, List.append_assoc] at hcalls
      obtain ⟨rfl, hrest⟩ := ihb body' _ _ hcalls
      obtain ⟨rfl, rfl⟩ := ihr more' rest rest' hrest
      cases hcall
      exact ⟨rfl, rfl⟩

theorem FdtTree.calls_injective {tree other : FdtTree FdtProp} (h : tree.calls = other.calls) : tree = other := by
  obtain ⟨hcall, hcalls⟩ := List.cons.inj h
  obtain ⟨hbody, -⟩ := FdtBody.calls_injective tree.body other.body [] [] hcalls
  cases tree
  cases other
  cases hcall
  cases hbody
  rfl

/-! ## Words -/

theorem be32_eq (v : U32) : be32 v = [byteOf (v.setWidth 64) 3, byteOf (v.setWidth 64) 2, byteOf (v.setWidth 64) 1, byteOf
    (v.setWidth 64) 0] := rfl

theorem beValue_be32 (v : U32) : beValue (be32 v) = v.toNat := by
  have hv := v.isLt
  rw [be32_eq]
  simp only [beValue, List.foldl_cons, List.foldl_nil, byteOf, BitVec.toNat_setWidth, BitVec.toNat_ushiftRight,
    Nat.shiftRight_eq_div_pow]
  omega

theorem word_stands {block rest : List U8} {pos : ℕ} {v : U32} (h : Stands block pos (be32 v ++ rest)) :
    beWordAt block pos = some v.toNat ∧ Stands block (pos + 4) rest := by
  refine ⟨?_, ?_⟩
  · rw [h.left.beWordAt (length_be32 v), beValue_be32]
  · have := h.right
    rwa [length_be32] at this

/-! ## The builder's structure block -/

theorem padded_append {a : List U8} (b : List U8) (h : a.length % 4 = 0) : padded (a ++ b) = a ++ padded b := by
  unfold padded
  have hlen : (a ++ b).length % 4 = b.length % 4 := by
    rw [List.length_append]
    omega
  rw [hlen, List.append_assoc]

namespace Fdt

/-- The offset of a name in the table. -/
def offsetOf (f : Fdt) (name : List U8) : U32 := ((f.names.find? fun e => decide (e.1 = name)).map Prod.snd).getD 0

end Fdt

namespace FdtCall

/-- A call in the structure block. -/
def encode (off : List U8 → U32) : FdtCall → List U8
  | .beginNode name => padded (be32 FDT_BEGIN_NODE ++ (name ++ [0]))
  | .prop name data => padded (be32 FDT_PROP ++ (be32 (BitVec.ofNat 32 data.length) ++ (be32 (off name) ++ data)))
  | .endNode => be32 FDT_END_NODE

theorem encode_beginNode (off : List U8 → U32) (name : List U8) :
    (beginNode name).encode off = padded (be32 FDT_BEGIN_NODE ++ (name ++ [0])) := rfl

theorem encode_prop (off : List U8 → U32) (name data : List U8) : (prop name data).encode off =
    padded (be32 FDT_PROP ++ (be32 (BitVec.ofNat 32 data.length) ++ (be32 (off name) ++ data))) := rfl

theorem length_encode (off : List U8 → U32) (c : FdtCall) : (c.encode off).length = c.size := by
  cases c with
  | beginNode name =>
    dsimp only [size]
    rw [encode_beginNode, length_padded, List.length_append, length_be32, List.length_append, List.length_singleton]
    omega
  | prop name data =>
    dsimp only [size]
    rw [encode_prop, length_padded, List.length_append, List.length_append, List.length_append, length_be32, length_be32,
      length_be32]
    omega
  | endNode => exact length_be32 _

theorem size_aligned (c : FdtCall) : c.size % 4 = 0 := by
  cases c <;> dsimp only [size] <;> omega

theorem encode_congr {off off' : List U8 → U32} {c : FdtCall} (h : ∀ n, c.propName = some n → off n = off' n) :
    c.encode off = c.encode off' := by
  cases c with
  | beginNode name => rfl
  | prop name data =>
    rw [encode_prop, encode_prop, h name rfl]
  | endNode => rfl

end FdtCall

namespace Fdt

variable {f : Fdt}

/-- A name that was given an offset keeps it. -/
theorem names_keep {n : List U8} {e : List U8 × U32} (h : f.names.find? (fun e => decide (e.1 = n)) = some e) (c : FdtCall) :
    (c.apply f).names.find? (fun e => decide (e.1 = n)) = some e := by
  cases c with
  | beginNode name => exact h
  | prop name data =>
    show (f.nameOffset name).2.names.find? _ = some e
    unfold nameOffset
    split
    · exact h
    · dsimp only
      rw [List.find?_append, h]
      rfl
  | endNode => exact h

theorem names_keep_all {n : List U8} {e : List U8 × U32} (h : f.names.find? (fun e => decide (e.1 = n)) = some e) (calls :
    List FdtCall) :
    (calls.foldl FdtCall.apply f).names.find? (fun e => decide (e.1 = n)) = some e := by
  induction calls generalizing f with
  | nil => exact h
  | cons c calls ih => exact ih (names_keep h c)

/-- A property's name is in the table once it is written, at the offset that is written. -/
theorem name_known (f : Fdt) (name data : List U8) :
    ((FdtCall.prop name data).apply f).names.find? (fun e => decide (e.1 = name)) = some (name, (f.nameOffset name).1) := by
  show (f.nameOffset name).2.names.find? _ = _
  unfold nameOffset
  cases hf : f.names.find? fun e => decide (e.1 = name) with
  | some e =>
    have hfound := List.find?_some hf
    have hname : e.1 = name := of_decide_eq_true hfound
    rw [← hname] at hf ⊢
    exact hf
  | none =>
    dsimp only
    rw [List.find?_append, hf, List.find?_singleton]
    simp

theorem offsetOf_known {n : List U8} {e : List U8 × U32} (h : f.names.find? (fun e => decide (e.1 = n)) = some e) :
    f.offsetOf n = e.2 := by
  unfold offsetOf
  rw [h]
  rfl

theorem offsetOf_kept {c : FdtCall} {n : List U8} (h : c.propName = some n) (calls : List FdtCall) :
    (calls.foldl FdtCall.apply (c.apply f)).offsetOf n = (c.apply f).offsetOf n := by
  cases c with
  | beginNode name => cases h
  | endNode => cases h
  | prop name data =>
    cases h
    have hknown := name_known f n data
    rw [offsetOf_known hknown, offsetOf_known (names_keep_all hknown calls)]

theorem struct_nameOffset (f : Fdt) (name : List U8) : (f.nameOffset name).2.struct_ = f.struct_ := by
  unfold nameOffset
  split <;> rfl

/-- One call goes to the end of an aligned structure block. -/
theorem struct_apply (ha : f.struct_.length % 4 = 0) (c : FdtCall) :
    (c.apply f).struct_ = f.struct_ ++ c.encode (c.apply f).offsetOf := by
  cases c with
  | beginNode name =>
    show padded (f.struct_ ++ be32 FDT_BEGIN_NODE ++ name ++ [0]) = _
    rw [List.append_assoc, List.append_assoc, padded_append _ ha]
    rfl
  | prop name data =>
    show padded ((f.nameOffset name).2.struct_ ++ be32 FDT_PROP ++ be32 (BitVec.ofNat 32 data.length) ++ be32
      (f.nameOffset name).1 ++ data) = _
    have hoff : (FdtCall.apply f (.prop name data)).offsetOf name = (f.nameOffset name).1 := offsetOf_known (name_known f name data)
    rw [struct_nameOffset, FdtCall.encode_prop, hoff, List.append_assoc, List.append_assoc, List.append_assoc, padded_append _ ha]
  | endNode => rfl

/-- **The structure block** is the calls in a row. -/
theorem struct_foldl (ha : f.struct_.length % 4 = 0) (calls : List FdtCall) :
    (calls.foldl FdtCall.apply f).struct_ = f.struct_ ++ calls.flatMap (FdtCall.encode (calls.foldl FdtCall.apply f).offsetOf) := by
  induction calls generalizing f with
  | nil => rw [List.flatMap_nil, List.append_nil]; rfl
  | cons c calls ih =>
    have hstep := struct_apply ha c
    have ha' : (c.apply f).struct_.length % 4 = 0 := by
      have := c.size_aligned
      rw [hstep, List.length_append, FdtCall.length_encode]
      omega
    have hsame : c.encode (c.apply f).offsetOf = c.encode (calls.foldl FdtCall.apply (c.apply f)).offsetOf :=
      FdtCall.encode_congr fun n hn => (offsetOf_kept hn calls).symm
    rw [List.foldl_cons, ih ha', hstep, List.flatMap_cons, List.append_assoc, hsame]

/-! ## The strings -/

/-- Every name of the table stands in the strings at its offset. -/
def Named (f : Fdt) : Prop := ∀ e ∈ f.names, ∃ pos, Stands f.strings pos (e.1 ++ [0]) ∧ e.2 = BitVec.ofNat 32 pos

theorem Named.apply (h : f.Named) (c : FdtCall) : (c.apply f).Named := by
  cases c with
  | beginNode name => exact h
  | endNode => exact h
  | prop name data =>
    show (f.nameOffset name).2.Named
    unfold nameOffset
    split
    · exact h
    · intro e he
      rcases List.mem_append.1 he with he | he
      · obtain ⟨pos, hs, hpos⟩ := h e he
        refine ⟨pos, ?_, hpos⟩
        dsimp only
        rw [List.append_assoc]
        exact hs.extend _
      · obtain rfl := List.mem_singleton.1 he
        exact ⟨f.strings.length, ⟨f.strings, [], by rw [List.append_nil, List.append_assoc], rfl⟩, rfl⟩

theorem Named.foldl (h : f.Named) (calls : List FdtCall) : (calls.foldl FdtCall.apply f).Named := by
  induction calls generalizing f with
  | nil => exact h
  | cons c calls ih => exact ih (h.apply c)

/-- The name of a property is read back at its offset. -/
theorem Named.stringAt (h : f.Named) (hsize : f.strings.length < 2 ^ 32) {n : List U8} {e : List U8 × U32} (hn : 0 ∉ n)
    (he : f.names.find? (fun e => decide (e.1 = n)) = some e) : stringAt f.strings (f.offsetOf n).toNat = some n := by
  obtain ⟨pos, hs, hpos⟩ := h e (List.mem_of_find?_eq_some he)
  have hfound := List.find?_some he
  have hname : e.1 = n := of_decide_eq_true hfound
  have hle := hs.end_le
  rw [offsetOf_known he, hpos, BitVec.toNat_ofNat, Nat.mod_eq_of_lt (by omega)]
  rw [hname] at hs
  exact hs.stringAt hn

end Fdt

/-! ## Tokens -/

section Tokens

open FdtCall

variable {block strings name data : List U8} {off : List U8 → U32} {pos fuel : ℕ}

theorem stands_padded {bytes : List U8} (h : Stands block pos (padded bytes)) : Stands block pos bytes := h.left

theorem nextToken_of_tag {v : U32} (hw : beWordAt block pos = some v.toNat) (hv : v.toNat ≠ FDT_NOP.toNat) :
    nextToken block (fuel + 1) pos = tokenAt block pos := by
  unfold nextToken
  rw [hw, if_neg fun h => hv (Option.some.inj h)]

theorem token_beginNode (h : Stands block pos ((beginNode name).encode off)) (ha : pos % 4 = 0) (hz : 0 ∉ name) :
    nextToken block (fuel + 1) pos = some (.beginNode name, pos + ((beginNode name).encode off).length) := by
  obtain ⟨htag, hname⟩ := word_stands (stands_padded h)
  have hnext : alignUp (pos + 4 + name.length + 1) 4 = pos + ((beginNode name).encode off).length := by
    rw [length_encode]
    dsimp only [alignUp, size]
    omega
  rw [nextToken_of_tag htag (by decide)]
  unfold tokenAt
  rw [htag, Option.bind_eq_bind, Option.bind_some, if_pos rfl, hname.stringAt hz, Option.bind_eq_bind, Option.bind_some, hnext]

theorem token_endNode (h : Stands block pos (endNode.encode off)) :
    nextToken block (fuel + 1) pos = some (.endNode, pos + (endNode.encode off).length) := by
  have htag : beWordAt block pos = some FDT_END_NODE.toNat := by
    rw [h.beWordAt (length_be32 _), ← beValue_be32]
    rfl
  rw [nextToken_of_tag htag (by decide), length_encode]
  unfold tokenAt
  rw [htag, Option.bind_eq_bind, Option.bind_some, if_neg (by decide), if_pos rfl]
  rfl

theorem token_prop (h : Stands block pos ((prop name data).encode off)) (ha : pos % 4 = 0) (hsize : block.length < 2 ^ 32) :
    nextToken block (fuel + 1) pos = some (.prop (off name).toNat data, pos + ((prop name data).encode off).length) := by
  obtain ⟨htag, hs⟩ := word_stands (stands_padded h)
  obtain ⟨hlen, hs⟩ := word_stands hs
  obtain ⟨hoff, hs⟩ := word_stands hs
  have hle := hs.end_le
  have hnext : alignUp (pos + 12 + data.length) 4 = pos + ((prop name data).encode off).length := by
    rw [length_encode]
    dsimp only [alignUp, size]
    omega
  rw [BitVec.toNat_ofNat, Nat.mod_eq_of_lt (by omega)] at hlen
  rw [nextToken_of_tag htag (by decide)]
  unfold tokenAt
  rw [htag, Option.bind_eq_bind, Option.bind_some, if_neg (by decide), if_neg (by decide), if_pos rfl, hlen, Option.bind_eq_bind,
    Option.bind_some, hoff, Option.bind_some, hs.sliceAt, Option.bind_some, hnext]

theorem token_finish (h : Stands block pos (be32 FDT_END)) : nextToken block (fuel + 1) pos = some (.finish, pos + 4) := by
  have htag : beWordAt block pos = some FDT_END.toNat := by
    rw [h.beWordAt (length_be32 _), ← beValue_be32]
  rw [nextToken_of_tag htag (by decide)]
  unfold tokenAt
  rw [htag, Option.bind_eq_bind, Option.bind_some, if_neg (by decide), if_neg (by decide), if_neg (by decide), if_pos rfl]

/-! ## Trees -/

/-- A property with the offset of its name. -/
def readProp (off : List U8 → U32) (p : FdtProp) : ReadProp := ⟨p, (off p.name).toNat⟩

/-- The calls of a node up to its end, in the structure block. -/
def FdtBody.encode (off : List U8 → U32) (body : FdtBody FdtProp) : List U8 :=
    (body.calls ++ [FdtCall.endNode]).flatMap (FdtCall.encode off)

theorem FdtBody.encode_done : FdtBody.done.encode off = FdtCall.endNode.encode off := by
  unfold FdtBody.encode
  rfl

theorem FdtBody.encode_prop (p : FdtProp) (rest : FdtBody FdtProp) :
    (FdtBody.prop p rest).encode off = (FdtCall.prop p.name p.data).encode off ++ rest.encode off := rfl

theorem FdtBody.encode_node (name : List U8) (body rest : FdtBody FdtProp) :
    (FdtBody.node name body rest).encode off = (FdtCall.beginNode name).encode off ++ (body.encode off ++ rest.encode off) := by
  unfold FdtBody.encode
  rw [FdtBody.calls, List.cons_append, List.flatMap_cons, List.append_assoc, List.cons_append, List.append_cons,
    List.flatMap_append]

theorem FdtBody.encode_aligned (body : FdtBody FdtProp) : (body.encode off).length % 4 = 0 := by
  have hcall : ∀ c : FdtCall, (c.encode off).length % 4 = 0 := fun c => by
    rw [length_encode]
    exact c.size_aligned
  induction body with
  | done =>
    rw [FdtBody.encode_done]
    exact hcall .endNode
  | prop p rest ih =>
    have := hcall (.prop p.name p.data)
    rw [FdtBody.encode_prop, List.length_append]
    omega
  | node name body rest ihb ihr =>
    have := hcall (.beginNode name)
    rw [FdtBody.encode_node, List.length_append, List.length_append]
    omega

/-- **What a node holds is read back**, whatever follows it. -/
theorem body_read (hsize : block.length < 2 ^ 32) (body : FdtBody FdtProp) (hs : Stands block pos (body.encode off)) (ha :
    pos % 4 = 0)
    (hnul : ∀ c ∈ body.calls, c.NulFree) (hnames : ∀ p ∈ body.props, stringAt strings (off p.name).toNat = some p.name)
    (hfuel : body.calls.length < fuel) :
    bodyAt block strings fuel pos = some (body.map (readProp off), pos + (body.encode off).length) := by
  induction body generalizing pos fuel with
  | done =>
    obtain ⟨fuel, rfl⟩ : ∃ n, fuel = n + 1 := ⟨fuel - 1, by omega⟩
    rw [FdtBody.encode_done] at hs ⊢
    unfold bodyAt
    rw [token_endNode hs]
    rfl
  | prop p rest ih =>
    obtain ⟨fuel, rfl⟩ : ∃ n, fuel = n + 1 := ⟨fuel - 1, by omega⟩
    rw [FdtBody.encode_prop] at hs ⊢
    have halign : (FdtCall.encode off (.prop p.name p.data)).length % 4 = 0 := by
      rw [length_encode]
      exact size_aligned _
    have hrest := ih hs.right (by omega) (fun c hc => hnul c (List.mem_cons_of_mem _ hc))
      (fun q hq => hnames q (List.mem_cons_of_mem _ hq))
      (show rest.calls.length < fuel from Nat.lt_of_succ_lt_succ hfuel)
    unfold bodyAt
    rw [token_prop hs.left ha hsize]
    dsimp only
    rw [hnames p List.mem_cons_self, Option.bind_eq_bind, Option.bind_some, hrest, Option.bind_eq_bind, Option.bind_some,
      List.length_append,
      Nat.add_assoc]
    rfl
  | node name body rest ihb ihr =>
    obtain ⟨fuel, rfl⟩ : ∃ n, fuel = n + 1 := ⟨fuel - 1, by omega⟩
    rw [FdtBody.encode_node] at hs ⊢
    have hcalls : (FdtBody.node name body rest).calls = .beginNode name :: (body.calls ++ .endNode :: rest.calls) := rfl
    rw [hcalls] at hnul hfuel
    rw [List.length_cons, List.length_append, List.length_cons] at hfuel
    have halign : (FdtCall.encode off (.beginNode name)).length % 4 = 0 := by
      rw [length_encode]
      exact size_aligned _
    have hbody : bodyAt block strings fuel _ = _ := ihb hs.right.left (by omega) (fun c hc => hnul c (by simp [hc]))
      (fun q hq => hnames q (List.mem_append_left _ hq)) (by omega)
    have halign' : (body.encode off).length % 4 = 0 := body.encode_aligned
    have hrest : bodyAt block strings fuel _ = _ := ihr hs.right.right (by omega) (fun c hc => hnul c (by simp [hc]))
      (fun q hq => hnames q (List.mem_append_right _ hq)) (by omega)
    unfold bodyAt
    rw [token_beginNode hs.left ha (hnul _ List.mem_cons_self)]
    dsimp only
    rw [hbody, Option.bind_eq_bind, Option.bind_some, hrest, Option.bind_some, List.length_append, List.length_append,
      ← Nat.add_assoc, ← Nat.add_assoc]
    rfl

end Tokens

/-! ## The round trip -/

theorem FdtTree.encode_calls (off : List U8 → U32) (tree : FdtTree FdtProp) :
    tree.calls.flatMap (FdtCall.encode off) = (FdtCall.beginNode tree.name).encode off ++ tree.body.encode off := rfl

/-- A tree that stands at the front of the structure block, before its end, is read back. -/
theorem tree_read {block strings : List U8} {off : List U8 → U32} {tree : FdtTree FdtProp} (hsize : block.length < 2 ^ 32)
    (hblock : block = tree.calls.flatMap (FdtCall.encode off) ++ be32 FDT_END) (hnul : ∀ c ∈ tree.calls, c.NulFree)
    (hnames : ∀ p ∈ tree.body.props, stringAt strings (off p.name).toNat = some p.name) :
    treeAt block strings = some (tree.map (readProp off)) := by
  have hs : Stands block 0 ((FdtCall.beginNode tree.name).encode off ++ (tree.body.encode off ++ be32 FDT_END)) := by
    rw [← List.append_assoc, ← FdtTree.encode_calls, ← hblock]
    exact .whole block
  have halign : ((FdtCall.beginNode tree.name).encode off).length % 4 = 0 := by
    rw [FdtCall.length_encode]
    exact FdtCall.size_aligned _
  have hfuel : tree.body.calls.length < block.length + 1 := by
    have hcall : ∀ c : FdtCall, 1 ≤ (c.encode off).length := fun c => by
      rw [FdtCall.length_encode]
      cases c <;> dsimp only [FdtCall.size] <;> omega
    have hle : ∀ calls : List FdtCall, calls.length ≤ (calls.flatMap (FdtCall.encode off)).length := fun calls => by
      induction calls with
      | nil => exact Nat.le_refl 0
      | cons c calls ih =>
        have := hcall c
        rw [List.length_cons, List.flatMap_cons, List.length_append]
        omega
    have := hle tree.calls
    rw [hblock, List.length_append]
    unfold FdtTree.calls at this ⊢
    rw [List.length_cons, List.length_append] at this
    omega
  have hbody := body_read hsize tree.body hs.right.left (by omega)
    (fun c hc => hnul c (List.mem_cons_of_mem _ (List.mem_append_left _ hc)))
    hnames hfuel
  have hend : nextToken block (block.length + 1) _ = _ := token_finish hs.right.right
  have hlast : 0 + ((FdtCall.beginNode tree.name).encode off).length + (tree.body.encode off).length + 4 = block.length := by
    rw [hblock, FdtTree.encode_calls, List.length_append, List.length_append, length_be32, Nat.zero_add]
  unfold treeAt
  rw [token_beginNode hs.left rfl (hnul _ List.mem_cons_self)]
  dsimp only
  rw [hbody, Option.bind_eq_bind, Option.bind_some, hend, Option.bind_eq_bind, Option.bind_some, hlast, if_pos rfl]
  rfl

theorem words_read {block rest : List U8} {words : List U32} {pos : ℕ} (hs : Stands block pos (words.flatMap be32 ++ rest)) (i :
    ℕ) (v : U32)
    (hv : words[i]? = some v) : beWordAt block (pos + 4 * i) = some v.toNat := by
  induction words generalizing pos i with
  | nil => cases hv
  | cons w words ih =>
    rw [List.flatMap_cons, List.append_assoc] at hs
    obtain ⟨hw, hrest⟩ := word_stands hs
    cases i with
    | zero =>
      cases hv
      exact hw
    | succ i =>
      have := ih hrest i hv
      rwa [Nat.add_assoc, Nat.add_comm 4, ← Nat.mul_succ] at this

/-- A header is read back word by word. -/
theorem header_read {blob rest : List U8} {magic totalSize offStruct offStrings offMemRsvmap version lastCompVersion bootCpuid sizeStrings
    sizeStruct : U32} (hs : Stands blob 0 ([magic, totalSize, offStruct, offStrings, offMemRsvmap, version, lastCompVersion,
      bootCpuid,
      sizeStrings, sizeStruct].flatMap be32 ++ rest)) :
    FdtHeader.read blob = some ⟨magic.toNat, totalSize.toNat, offStruct.toNat, offStrings.toNat, offMemRsvmap.toNat, version.toNat,
      lastCompVersion.toNat, bootCpuid.toNat, sizeStrings.toNat, sizeStruct.toNat⟩ := by
  have hw := words_read hs
  unfold FdtHeader.read
  rw [show beWordAt blob 0 = _ from hw 0 _ rfl, show beWordAt blob 4 = _ from hw 1 _ rfl, show beWordAt blob 8 = _ from hw 2 _ rfl,
    show beWordAt blob 12 = _ from hw 3 _ rfl, show beWordAt blob 16 = _ from hw 4 _ rfl, show beWordAt blob 20 = _ from hw 5 _ rfl,
    show beWordAt blob 24 = _ from hw 6 _ rfl, show beWordAt blob 28 = _ from hw 7 _ rfl, show beWordAt blob 32 = _ from hw 8 _ rfl,
    show beWordAt blob 36 = _ from hw 9 _ rfl]
  rfl

/-- Sixteen zeros are an empty reserve map. -/
theorem reserved_read {blob : List U8} {pos fuel : ℕ} (hs : Stands blob pos (List.replicate 16 0)) : reservedAt blob
    (fuel + 1) pos = some [] := by
  have hsplit : List.replicate 16 (0 : U8) = List.replicate 8 0 ++ List.replicate 8 0 := rfl
  rw [hsplit] at hs
  have haddress := hs.left.sliceAt
  have hsize := hs.right.sliceAt
  rw [List.length_replicate] at haddress hsize
  unfold reservedAt
  rw [haddress, hsize]
  rfl

namespace Fdt

/-- The header of a blob. -/
def words (f : Fdt) : List U32 :=
  [0xd00dfeed, BitVec.ofNat 32 (56 + (f.u32 FDT_END).struct_.length + f.strings.length), 56,
    BitVec.ofNat 32 (56 + (f.u32 FDT_END).struct_.length), 40, 17, 16, 0, BitVec.ofNat 32 f.strings.length,
    BitVec.ofNat 32 (f.u32 FDT_END).struct_.length]

theorem finish_eq (f : Fdt) : f.finish = f.words.flatMap be32 ++ (List.replicate 16 0 ++ ((f.u32 FDT_END).struct_ ++ f.strings))
    := by
  unfold finish
  dsimp only
  rw [List.append_assoc, List.append_assoc]
  rfl

theorem length_finish (f : Fdt) : f.finish.length = 56 + (f.u32 FDT_END).struct_.length + f.strings.length := by
  rw [finish_eq]
  simp only [words, List.length_append, List.length_flatMap, length_be32, List.map_cons, List.map_nil, List.sum_cons, List.sum_nil,
    List.length_replicate]
  omega

/-- The properties of a tree are in the table of its blob. -/
theorem known_of_mem {f : Fdt} {calls : List FdtCall} {name data : List U8} (h : FdtCall.prop name data ∈ calls) :
    ∃ e, (calls.foldl FdtCall.apply f).names.find? (fun e => decide (e.1 = name)) = some e := by
  induction calls generalizing f with
  | nil => cases h
  | cons c calls ih =>
    rcases List.mem_cons.1 h with rfl | h
    · exact ⟨_, names_keep_all (name_known f name data) calls⟩
    · exact ih h

end Fdt

theorem FdtBody.mem_calls {body : FdtBody FdtProp} {p : FdtProp} (h : p ∈ body.props) :
    FdtCall.prop p.name p.data ∈ body.calls := by
  induction body with
  | done => cases h
  | prop q rest ih =>
    rcases List.mem_cons.1 h with rfl | h
    · exact List.mem_cons_self
    · exact List.mem_cons_of_mem _ (ih h)
  | node name body rest ihb ihr =>
    rcases List.mem_append.1 h with h | h
    · exact List.mem_cons_of_mem _ (List.mem_append_left _ (ihb h))
    · exact List.mem_cons_of_mem _ (List.mem_append_right _ (List.mem_cons_of_mem _ (ihr h)))

theorem FdtBody.map_readProp (off : List U8 → U32) (body : FdtBody FdtProp) : (body.map
    (readProp off)).map ReadProp.toFdtProp = body := by
  induction body with
  | done => rfl
  | prop p rest ih => exact congrArg (FdtBody.prop p) ih
  | node name body rest ihb ihr => exact congrArg₂ (FdtBody.node name) ihb ihr

theorem FdtBody.props_map {π ρ : Type} (f : π → ρ) (body : FdtBody π) : (body.map f).props = body.props.map f := by
  induction body with
  | done => rfl
  | prop p rest ih => exact congrArg (f p :: ·) ih
  | node name body rest ihb ihr =>
    show (body.map f).props ++ (rest.map f).props = (body.props ++ rest.props).map f
    rw [ihb, ihr, List.map_append]

/-- The blob of a tree is read back with the offsets of its table. -/
theorem parse_tree {tree : FdtTree FdtProp} (hnul : ∀ c ∈ tree.calls, c.NulFree) (hsize : (Fdt.build tree.calls).length < 2 ^ 32) :
    ∃ off, FlatTree.parse (Fdt.build tree.calls) = some ⟨[], tree.map (readProp off)⟩ := by
  have hnamed : (tree.calls.foldl FdtCall.apply Fdt.new).Named := Fdt.Named.foldl
    (fun e he => absurd he List.not_mem_nil) tree.calls
  have hstruct : (tree.calls.foldl FdtCall.apply Fdt.new).struct_ =
      tree.calls.flatMap (FdtCall.encode (tree.calls.foldl FdtCall.apply Fdt.new).offsetOf) := Fdt.struct_foldl rfl tree.calls
  have hknown : ∀ p ∈ tree.body.props, ∃ e, (tree.calls.foldl FdtCall.apply Fdt.new).names.find? (fun e => decide
    (e.1 = p.name)) = some e :=
    fun p hp => Fdt.known_of_mem (List.mem_cons_of_mem _ (List.mem_append_left _ (FdtBody.mem_calls hp)))
  have hfree : ∀ p ∈ tree.body.props, 0 ∉ p.name := fun p hp =>
    hnul _ (List.mem_cons_of_mem _ (List.mem_append_left _ (FdtBody.mem_calls hp)))
  unfold Fdt.build at hsize ⊢
  generalize tree.calls.foldl FdtCall.apply Fdt.new = f at hnamed hstruct hknown hsize ⊢
  have hlen := Fdt.length_finish f
  have hs : Stands f.finish 0 (f.words.flatMap be32 ++ (List.replicate 16 0 ++ ((f.u32 FDT_END).struct_ ++ f.strings))) :=
    Fdt.finish_eq f ▸ .whole _
  have hreserved : Stands f.finish 40 (List.replicate 16 0) := hs.right.left
  have hblock : Stands f.finish 56 (f.u32 FDT_END).struct_ := hs.right.right.left
  have hstrings : Stands f.finish (56 + (f.u32 FDT_END).struct_.length) f.strings := hs.right.right.right
  -- every size of the header fits its word
  have hfits : ∀ n, n ≤ f.finish.length → (BitVec.ofNat 32 n).toNat = n := fun n hn => by
    rw [BitVec.toNat_ofNat, Nat.mod_eq_of_lt (by omega)]
  have hheader := header_read hs
  rw [hfits _ (by omega), hfits _ (by omega), hfits _ (by omega), hfits _ (by omega)] at hheader
  have hroot : treeAt (f.u32 FDT_END).struct_ f.strings = some (tree.map (readProp f.offsetOf)) := by
    refine tree_read (by omega) (congrArg (· ++ be32 FDT_END) hstruct) hnul fun p hp => ?_
    obtain ⟨e, he⟩ := hknown p hp
    exact hnamed.stringAt (by omega) (hfree p hp) he
  refine ⟨f.offsetOf, ?_⟩
  unfold FlatTree.parse
  rw [hheader, Option.bind_eq_bind, Option.bind_some, if_pos (by simp [FdtHeader.proper, FDT_MAGIC, hlen])]
  dsimp only
  rw [show (40 : U32).toNat = 40 from rfl, show (56 : U32).toNat = 56 from rfl, reserved_read hreserved, hblock.sliceAt,
    hstrings.sliceAt]
  simp only [Option.bind_eq_bind, Option.bind_some]
  rw [hroot, Option.bind_some]

/-- **The blob round-trips**: of balanced calls with one root and of names without zeros,
  the blob is read back as the tree of the calls,
in which equal names of properties stand at one offset. -/
theorem Fdt.round_trip {calls : List FdtCall} (hbalanced : FdtCall.balanced calls = true) (hnul : ∀ c ∈ calls, c.NulFree)
    (hsize : (Fdt.build calls).length < 2 ^ 32) :
    ∃! tree : FdtTree FdtProp, tree.calls = calls ∧ ∃ read : FdtTree ReadProp, FlatTree.parse (Fdt.build calls) = some ⟨[], read⟩ ∧
      read.map ReadProp.toFdtProp = tree ∧ ∀ p ∈ read.body.props, ∀ q ∈ read.body.props, p.name = q.name →
        p.nameOffset = q.nameOffset := by
  obtain ⟨tree, rfl⟩ := FdtCall.tree_of_balanced hbalanced
  obtain ⟨off, hparse⟩ := parse_tree hnul hsize
  refine ⟨tree, ⟨rfl, tree.map (readProp off), hparse, ?_, fun p hp q hq hname => ?_⟩, fun other h => FdtTree.calls_injective h.1⟩
  · exact congrArg (FdtTree.mk tree.name) (FdtBody.map_readProp off tree.body)
  · have hread : (tree.map (readProp off)).body.props = tree.body.props.map (readProp off) := FdtBody.props_map _ _
    rw [hread, List.mem_map] at hp hq
    obtain ⟨p', -, rfl⟩ := hp
    obtain ⟨q', -, rfl⟩ := hq
    exact congrArg (fun n => (off n).toNat) hname

/-- A name that two nodes use, and values of one, five and no bytes. -/
def sampleCalls : List FdtCall := [
  .beginNode [],
  .prop [0x61] [0],
  .beginNode [0x62, 0x63],
  .prop [0x61] [1, 0, 3, 4, 5],
  .prop [0x64, 0x65] [],
  .endNode,
  .endNode]

theorem Fdt.round_trip_sample : ∃! tree : FdtTree FdtProp, tree.calls = sampleCalls ∧ ∃ read : FdtTree ReadProp,
    FlatTree.parse (Fdt.build sampleCalls) = some ⟨[], read⟩ ∧ read.map ReadProp.toFdtProp = tree ∧
      ∀ p ∈ read.body.props, ∀ q ∈ read.body.props, p.name = q.name → p.nameOffset = q.nameOffset :=
  Fdt.round_trip (by decide) (by decide) (by rw [length_build]; decide)

end Lish
