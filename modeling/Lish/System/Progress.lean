import Lish.Core.Rank
import Lish.System.CodePages
import Lish.System.Slices
/-!
# Progress — what a chunk retires, and when it ends

A chunk never retires more than its budget, and an ECALL retires.  The loop over cached blocks ends: a turn retires, or closes
an interrupt, or adds to the traps that stop it.  The single-stepping loop counts retired instructions only, so it ends exactly
if the guest does not come to spin.
-/
namespace Lish

open Machine Loop

variable {S : Type} {host : Option HostFp} {maxInsns start : U64}

/-- The instructions retired since a first count. -/
def retired (start : U64) (h : Machine VirtBus) : ℕ := (h.cpu.insnCount - start).toNat

theorem retired_add {start : U64} {h h' : Machine VirtBus} {k : ℕ} (hi : h'.cpu.insnCount = h.cpu.insnCount + BitVec.ofNat 64 k)
    (hk : retired start h + k < 2 ^ 64) : retired start h' = retired start h + k := by
  unfold retired at hk ⊢
  have hsub : h'.cpu.insnCount - start = h.cpu.insnCount - start + BitVec.ofNat 64 k := by
    rw [hi, BitVec.sub_eq_add_neg, BitVec.sub_eq_add_neg, BitVec.add_assoc, BitVec.add_assoc,
      BitVec.add_comm (BitVec.ofNat 64 k)]
  have hk' : k < 2 ^ 64 := by omega
  rw [hsub, BitVec.toNat_add, BitVec.toNat_ofNat, Nat.mod_eq_of_lt hk', Nat.mod_eq_of_lt hk]

theorem retired_same {start : U64} {h h' : Machine VirtBus} (hi : h'.cpu.insnCount = h.cpu.insnCount) :
    retired start h' = retired start h := by
  unfold retired
  rw [hi]

theorem retired_self (h : Machine VirtBus) : retired h.cpu.insnCount h = 0 := by
  unfold retired
  rw [BitVec.sub_self]
  rfl

/-- One attempt retires one instruction, or none. -/
theorem retired_attempt {h h' : Machine VirtBus} (ha : Attempt h h') (hlt : retired start h < maxInsns.toNat) :
    retired start h' = retired start h + 1 ∨ retired start h' = retired start h ∧ h'.cpu.insnCount = h.cpu.insnCount := by
  have hmax := maxInsns.isLt
  rcases ha.insnCount with hi | hi
  · exact Or.inl (retired_add hi (by omega))
  · exact Or.inr ⟨retired_same hi, hi⟩

/-! ## Single stepping -/

/-- One attempt of the single-stepping loop. -/
def attempt (host : Option HostFp) (compiled : S → U64 → Bool × S) (l : Stepping S) :
    Option (Turn (Stepping S) (InterpreterStop × Stepping S)) :=
  match l.hart.run host 1 with
  | (.budget, hart) =>
    let (stop, watch) := compiled l.watch hart.cpu.pc
    some (if stop then .done (.compiled, ⟨hart, watch⟩) else .next ⟨hart, watch⟩)
  | (stop, hart) => some (.done (.cpu stop, ⟨hart, l.watch⟩))

/-- The guest spins: every attempt from here on traps, and the predicate accepts no pc. -/
def Spins (host : Option HostFp) (compiled : S → U64 → Bool × S) (l : Stepping S) : Prop :=
  ∀ n, ∃ l', after (attempt host compiled) n l = some l' ∧ l'.hart.cpu.insnCount = l.hart.cpu.insnCount

/-- The guest comes to spin, with budget left. -/
def ComesToSpin (host : Option HostFp) (compiled : S → U64 → Bool × S) (maxInsns : U64) (l : Stepping S) : Prop :=
  ∃ k l', after (stepUntil host compiled l.hart.cpu.insnCount maxInsns) k l = some l' ∧
    l'.hart.cpu.insnCount - l.hart.cpu.insnCount < maxInsns ∧ Spins host compiled l'

theorem stepUntil_eq (compiled : S → U64 → Bool × S) (l : Stepping S) : stepUntil host compiled start maxInsns l =
    if l.hart.cpu.insnCount - start < maxInsns then attempt host compiled l else some (.done (.cpu .budget, l)) := rfl

theorem attempt_some (compiled : S → U64 → Bool × S) (l : Stepping S) : ∃ t, attempt host compiled l = some t := by
  unfold attempt
  rcases l.hart.run host 1 with ⟨stop, h'⟩
  cases stop <;> exact ⟨_, rfl⟩

/-- What a turn does to the count: it retires at most one instruction, and an ECALL retires. -/
def TurnRetires {σ : Type} (hart : σ → Machine VirtBus) (start maxInsns : U64) (h : Machine VirtBus) :
    Turn σ (InterpreterStop × σ) → Prop
  | .next s => retired start h ≤ retired start (hart s) ∧ retired start (hart s) ≤ maxInsns.toNat
  | .done (stop, s) => retired start (hart s) ≤ maxInsns.toNat ∧
      (stop = .cpu .ecall → retired start h < retired start (hart s))

theorem attempt_retires {compiled : S → U64 → Bool × S} {l : Stepping S} {t : Turn (Stepping S) (InterpreterStop × Stepping S)}
    (ht : attempt host compiled l = some t) (hlt : retired start l.hart < maxInsns.toNat) :
    TurnRetires (·.hart) start maxInsns l.hart t := by
  obtain ⟨ha, hstop⟩ := runOne_attempt host l.hart
  have hr := retired_attempt ha hlt
  unfold attempt at ht
  rw [run_one] at ht
  generalize l.hart.runOne host = r at ha hstop hr ht
  obtain ⟨stop, h'⟩ := r
  dsimp only at ha hstop hr ht
  have hle : retired start l.hart ≤ retired start h' ∧ retired start h' ≤ maxInsns.toNat := by omega
  have hecall : ∀ stop', some stop' = stop → stop' = .ecall → retired start l.hart < retired start h' := by
    rintro stop' rfl rfl
    rcases hr with hr | ⟨-, hi⟩
    · omega
    · rcases hstop hi with h | ⟨e, h⟩ <;> cases h
  cases hs : stop.getD .budget with
  | budget =>
    rw [hs] at ht
    obtain rfl := Option.some.inj ht
    by_cases hc : (compiled l.watch h'.cpu.pc).1
    · rw [if_pos hc]
      exact ⟨hle.2, nofun⟩
    · rw [if_neg hc]
      exact hle
  | _ =>
    rw [hs] at ht
    cases ht
    refine ⟨hle.2, fun he => ?_⟩
    cases stop with
    | none => cases hs
    | some stop =>
      cases hs
      exact hecall _ rfl (InterpreterStop.cpu.inj he)

theorem stepUntil_retires {compiled : S → U64 → Bool × S} {l : Stepping S}
    {t : Turn (Stepping S) (InterpreterStop × Stepping S)} (ht : stepUntil host compiled start maxInsns l = some t)
    (hle : retired start l.hart ≤ maxInsns.toNat) : TurnRetires (·.hart) start maxInsns l.hart t := by
  rw [stepUntil_eq] at ht
  split_ifs at ht with hlt
  · exact attempt_retires ht (BitVec.lt_def.1 hlt)
  · cases ht
    exact ⟨hle, nofun⟩

theorem stepUntil_some (compiled : S → U64 → Bool × S) (l : Stepping S) : ∃ t, stepUntil host compiled start maxInsns l = some t := by
  rw [stepUntil_eq]
  split_ifs
  · exact attempt_some compiled l
  · exact ⟨_, rfl⟩

theorem spins_not_ends {compiled : S → U64 → Bool × S} {l : Stepping S} (hlt : l.hart.cpu.insnCount - start < maxInsns)
    (hs : Spins host compiled l) : ¬ Ends (stepUntil host compiled start maxInsns) l := by
  rintro ⟨n, hn⟩
  have hnone := not_ends_of_next (b := stepUntil host compiled start maxInsns)
    (J := fun l' => ∃ n, after (attempt host compiled) n l = some l' ∧ l'.hart.cpu.insnCount = l.hart.cpu.insnCount)
    ?_ ⟨0, rfl, rfl⟩ n
  · rw [hnone] at hn
    cases hn
  · rintro l' ⟨n, hl', hi⟩
    obtain ⟨l'', hl'', hi'⟩ := hs (n + 1)
    rw [after_succ hl'] at hl''
    refine ⟨l'', ?_, n + 1, by rw [after_succ hl']; exact hl'', hi'⟩
    rw [stepUntil_eq, hi, if_pos hlt]
    cases ha : attempt host compiled l' with
    | none => rw [ha] at hl''; cases hl''
    | some t =>
      rw [ha] at hl''
      cases t with
      | done r => cases hl''
      | next u => rw [Option.some.inj hl'']

/-- **The single-stepping loop** ends exactly if the guest does not come to spin. -/
theorem stepUntil_ends_iff (compiled : S → U64 → Bool × S) (l : Stepping S) :
    Ends (stepUntil host compiled l.hart.cpu.insnCount maxInsns) l ↔ ¬ ComesToSpin host compiled maxInsns l := by
  constructor
  · rintro he ⟨k, l', hl', hlt, hs⟩
    exact spins_not_ends hlt hs (ends_of_after hl' he)
  · intro hno
    rcases ends_or_stalls (b := stepUntil host compiled l.hart.cpu.insnCount maxInsns)
      (J := fun s => retired l.hart.cpu.insnCount s.hart ≤ maxInsns.toNat)
      (f := fun s => retired l.hart.cpu.insnCount s.hart) (fun s _ => stepUntil_some compiled s) (fun _ h => h)
      (fun s t hs ht => ⟨(stepUntil_retires ht hs).2, (stepUntil_retires ht hs).1⟩) (by rw [retired_self]; exact Nat.zero_le _) with h | ⟨k, t, ht, -, hstall⟩
    · exact h
    · have hcount : ∀ {u : Stepping S}, retired l.hart.cpu.insnCount u.hart = retired l.hart.cpu.insnCount t.hart →
          u.hart.cpu.insnCount = t.hart.cpu.insnCount := by
        intro u hu
        have := BitVec.eq_of_toNat_eq hu
        exact (BitVec.sub_left_inj _).1 this
      refine absurd ⟨k, t, ht, ?_, fun n => ?_⟩ hno
      · obtain ⟨u, hu, -⟩ := hstall 1
        by_contra hge
        rw [after, stepUntil_eq, if_neg hge] at hu
        cases hu
      · obtain ⟨u, hu, hcu⟩ := hstall n
        refine ⟨u, after_of_body (fun s t hs => ?_) hu, hcount hcu⟩
        rw [stepUntil_eq] at hs
        split_ifs at hs
        · exact hs
        · cases hs

/-! ## Cached blocks -/

/-- The budget is not exceeded and no block is empty. -/
structure Within (start maxInsns : U64) (l : Blocks S) : Prop where
  retired : retired start l.hart ≤ maxInsns.toNat
  filled : l.cache.Filled

/-- What is left: budget, interrupts that can be taken, traps in a row. -/
def left (start maxInsns : U64) (l : Blocks S) : ℕ × ℕ × ℕ :=
  (maxInsns.toNat - retired start l.hart, l.hart.cpu.interruptRank, maxInsns.toNat - l.stalledTraps.toNat)

def Less : ℕ × ℕ × ℕ → ℕ × ℕ × ℕ → Prop := Prod.Lex (· < ·) (Prod.Lex (· < ·) (· < ·))

theorem less_wf : WellFounded Less := WellFounded.prod_lex Nat.lt_wfRel.wf (WellFounded.prod_lex Nat.lt_wfRel.wf Nat.lt_wfRel.wf)

theorem less_of_retired {l l' : Blocks S} (h : retired start l.hart < retired start l'.hart)
    (hle : retired start l'.hart ≤ maxInsns.toNat) : Less (left start maxInsns l') (left start maxInsns l) := by
  refine Prod.Lex.left _ _ ?_
  omega

theorem less_of_stalled {l l' : Blocks S} (hi : l'.hart.cpu.insnCount = l.hart.cpu.insnCount)
    (hr : l'.hart.cpu.interruptRank ≤ l.hart.cpu.interruptRank) (hs : l'.stalledTraps = saturatingSucc l.stalledTraps)
    (hlt : l.stalledTraps < maxInsns) : Less (left start maxInsns l') (left start maxInsns l) := by
  have hlt := BitVec.lt_def.1 hlt
  have hsucc : l'.stalledTraps.toNat = l.stalledTraps.toNat + 1 := by
    have hmax := maxInsns.isLt
    have hne : l.stalledTraps ≠ BitVec.allOnes 64 := by
      intro hc
      rw [hc] at hlt
      have : (BitVec.allOnes 64).toNat = 2 ^ 64 - 1 := by decide
      omega
    rw [hs, saturatingSucc, if_neg hne, BitVec.toNat_add, show (1 : U64).toNat = 1 from rfl]
    exact Nat.mod_eq_of_lt (by omega)
  unfold left Less
  rw [retired_same hi, hsucc]
  rcases hr.lt_or_eq with hr | hr
  · exact Prod.Lex.right _ (Prod.Lex.left _ _ hr)
  · rw [hr]
    exact Prod.Lex.right _ (Prod.Lex.right _ (by omega))

/-- A turn keeps within the budget and descends, or it is the last; an ECALL retires. -/
def TurnDescends (start maxInsns : U64) (l : Blocks S) : Turn (Blocks S) (InterpreterStop × Blocks S) → Prop
  | .next l' => Within start maxInsns l' ∧ Less (left start maxInsns l') (left start maxInsns l)
  | .done (stop, l') => Within start maxInsns l' ∧ (stop = .cpu .ecall → retired start l.hart < retired start l'.hart)

theorem runUncachedOne_descends {l : Blocks S} (hw : Within start maxInsns l) (hlt : retired start l.hart < maxInsns.toNat)
    (hst : l.stalledTraps < maxInsns) : TurnDescends start maxInsns l (runUncachedOne host l) := by
  obtain ⟨ha, hstop⟩ := runOne_attempt host l.hart
  have hr := retired_attempt ha hlt
  unfold runUncachedOne
  rw [run_one]
  generalize l.hart.runOne host = r at ha hstop hr ⊢
  obtain ⟨stop, h'⟩ := r
  dsimp only at ha hstop hr ⊢
  have hwithin : ∀ stalled, Within start maxInsns { l with hart := h', stalledTraps := stalled } := fun _ => ⟨by dsimp only; omega, hw.filled⟩
  by_cases hb : stop.getD .budget = .budget
  · rw [if_pos hb]
    refine ⟨hwithin _, ?_⟩
    rcases hr with hr | ⟨-, hi⟩
    · exact less_of_retired (by dsimp only; omega) (by dsimp only; omega)
    · exact less_of_stalled hi (ha.rank hi) (if_pos hi) hst
  · rw [if_neg hb]
    refine ⟨hwithin _, fun he => ?_⟩
    rcases hr with hr | ⟨-, hi⟩
    · dsimp only
      omega
    · rcases hstop hi with rfl | ⟨e, rfl⟩
      · exact absurd rfl hb
      · cases InterpreterStop.cpu.inj he

theorem runBlock_descends {l : Blocks S} {block : List DecodedInsn} (hw : Within start maxInsns l) (hne : block ≠ [])
    (hlen : retired start l.hart + block.length ≤ maxInsns.toNat) (hst : l.stalledTraps < maxInsns) :
    TurnDescends start maxInsns l (runBlock host block l) := by
  obtain ⟨k, hk⟩ := runDecoded_blockRun host block l.hart
  unfold runBlock
  generalize l.hart.runDecoded host block = r at hk ⊢
  obtain ⟨out, h'⟩ := r
  dsimp only at hk ⊢
  have hmax := maxInsns.isLt
  have hle := hk.le
  have hr : retired start h' = retired start l.hart + k := retired_add hk.insnCount (by omega)
  have hwithin : ∀ stalled, Within start maxInsns { l with hart := h', stalledTraps := stalled } := fun _ => ⟨by dsimp only; omega, hw.filled⟩
  have hmore : ∀ stalled, k ≠ 0 → Less (left start maxInsns { l with hart := h', stalledTraps := stalled }) (left start maxInsns l) :=
    fun stalled hk0 => less_of_retired (by dsimp only; omega) (by dsimp only; omega)
  have hsame : k = 0 → h'.cpu.insnCount = l.hart.cpu.insnCount := by
    rintro rfl
    exact hk.insnCount.trans (BitVec.add_zero _)
  rcases out with stop | _
  · have hbudget : k = 0 → stop = .budget ∨ ∃ e, stop = .trap e := by
      intro hk0
      rcases hk.stalled hk0 with h | h | ⟨e, h⟩ | ⟨h, -⟩
      · exact absurd h hne
      · cases h
      · exact Or.inr ⟨e, DecodedRunOutcome.stop.inj h⟩
      · exact Or.inl (DecodedRunOutcome.stop.inj h)
    cases stop with
    | budget =>
      refine ⟨hwithin 0, ?_⟩
      by_cases hk0 : k = 0
      · rcases hk.stalled hk0 with h | h | ⟨e, h⟩ | ⟨-, h⟩
        · exact absurd h hne
        · cases h
        · cases h
        · unfold left Less
          rw [retired_same (hsame hk0)]
          exact Prod.Lex.right _ (Prod.Lex.left _ _ h)
      · exact hmore 0 hk0
    | ecall =>
      refine ⟨hwithin l.stalledTraps, fun _ => ?_⟩
      by_cases hk0 : k = 0
      · rcases hbudget hk0 with h | ⟨e, h⟩ <;> cases h
      · dsimp only
        omega
    | _ => exact ⟨hwithin l.stalledTraps, nofun⟩
  · refine ⟨hwithin _, ?_⟩
    by_cases hk0 : k = 0
    · exact less_of_stalled (hsame hk0) (hk.rank hk0) (if_pos (hsame hk0)) hst
    · exact hmore _ hk0

theorem untilCompiled_take (contains : U64 → Bool) (pc : U64) {block : List DecodedInsn} (h : block ≠ []) :
    untilCompiled contains pc block ≠ [] ∧ (untilCompiled contains pc block).length ≤ block.length := by
  induction block generalizing pc with
  | nil => exact absurd rfl h
  | cons d rest ih =>
    rw [untilCompiled]
    split_ifs
    · exact ⟨by simp, by simp⟩
    · refine ⟨by simp, ?_⟩
      cases rest with
      | nil => exact le_rfl
      | cons d' rest =>
        have := (ih (pc + d.byteLen) (by simp)).2
        simp only [List.length_cons] at this ⊢
        omega

theorem jitProbeFetch_frame (h : Machine VirtBus) (va : U64) : TlbOnly h.cpu (h.jitProbeFetch va).2.cpu := by
  have ht := (translate_frame busRel_true.paged h va .fetch).2
  unfold jitProbeFetch
  rcases hr : h.translate va .fetch with ⟨e | pa, h'⟩ <;> rw [hr] at ht <;> exact ht

/-- A lookup moves neither count nor rank; its block has an instruction. -/
structure LookedUp (l l' : Blocks S) (block : Option (List DecodedInsn)) : Prop where
  hart : TlbOnly l.hart.cpu l'.hart.cpu
  stalledTraps : l'.stalledTraps = l.stalledTraps
  filled : l.cache.Filled → l'.cache.Filled ∧ ∀ insns, block = some insns → insns ≠ []

theorem blockAt_lookedUp (l : Blocks S) : LookedUp l (blockAt l).2 (blockAt l).1 := by
  have hf := jitProbeFetch_frame l.hart l.hart.cpu.pc
  unfold blockAt
  dsimp only
  rcases hp : l.hart.jitProbeFetch l.hart.cpu.pc with ⟨_ | physical, h'⟩ <;> rw [hp] at hf
  · exact ⟨hf, rfl, fun h => ⟨h, nofun⟩⟩
  · dsimp only
    split_ifs
    · exact ⟨hf, rfl, fun h => ⟨h, nofun⟩⟩
    · exact ⟨hf, rfl, fun h => CodePageCache.block_filled h _ _ _⟩

theorem TurnDescends.of_lookup {l l' : Blocks S} {block : Option (List DecodedInsn)} (h : LookedUp l l' block)
    {t : Turn (Blocks S) (InterpreterStop × Blocks S)} (ht : TurnDescends start maxInsns l' t) : TurnDescends start maxInsns l t := by
  have hi : retired start l'.hart = retired start l.hart := retired_same h.hart.insnCount
  have hleft : left start maxInsns l' = left start maxInsns l := by
    unfold left
    rw [hi, h.stalledTraps]
    unfold Cpu.interruptRank
    rw [h.hart.sys]
  rcases t with l'' | ⟨stop, l''⟩
  · exact ⟨ht.1, hleft ▸ ht.2⟩
  · exact ⟨ht.1, fun he => hi ▸ ht.2 he⟩

theorem observeBlock_lookedUp (observe : S → U64 → Bool × S) (l : Blocks S) : LookedUp l (observeBlock observe l).2 none := by
  unfold observeBlock
  split_ifs <;> exact ⟨.refl _, rfl, fun h => ⟨h, nofun⟩⟩

theorem LookedUp.within {l l' : Blocks S} {block : Option (List DecodedInsn)} (h : LookedUp l l' block)
    (hw : Within start maxInsns l) : Within start maxInsns l' :=
  ⟨(retired_same h.hart.insnCount).trans_le hw.retired, (h.filled hw.filled).1⟩

/-- **A turn over cached blocks** ends, and descends or is the last. -/
theorem blockTurn_descends (contains : S → U64 → Bool) (observe : S → U64 → Bool × S) (stopCapable : Bool) {l : Blocks S}
    (hw : Within start maxInsns l) :
    ∃ t, blockTurn host contains observe stopCapable start maxInsns l = some t ∧ TurnDescends start maxInsns l t := by
  have ho := observeBlock_lookedUp observe l
  unfold blockTurn
  generalize observeBlock observe l = o at ho ⊢
  obtain ⟨stop, l₁⟩ := o
  dsimp only at ho
  have hw₁ := ho.within hw
  have hend : ∀ s, s ≠ InterpreterStop.cpu .ecall → TurnDescends start maxInsns l (.done (s, l₁)) := fun s hs =>
    ⟨hw₁, fun h => absurd h hs⟩
  cases stop with
  | true => exact ⟨_, rfl, hend _ nofun⟩
  | false =>
    dsimp only
    by_cases hb : l₁.hart.cpu.insnCount - start ≥ maxInsns ∨ l₁.stalledTraps ≥ maxInsns
    · exact ⟨_, if_pos hb, hend _ nofun⟩
    rw [if_neg hb]
    have hr : retired start l₁.hart < maxInsns.toNat := BitVec.lt_def.1 (BitVec.not_le.1 fun h => hb (Or.inl h))
    have hst : l₁.stalledTraps < maxInsns := BitVec.not_le.1 fun h => hb (Or.inr h)
    have hl := blockAt_lookedUp l₁
    generalize blockAt l₁ = r at hl ⊢
    obtain ⟨block, l₂⟩ := r
    dsimp only at hl
    have hw₂ := hl.within hw₁
    have hr₂ : retired start l₂.hart < maxInsns.toNat := by rwa [retired_same hl.hart.insnCount]
    have hst₂ : l₂.stalledTraps < maxInsns := by rwa [hl.stalledTraps]
    cases block with
    | none => exact ⟨_, rfl, .of_lookup ho (.of_lookup hl (runUncachedOne_descends hw₂ hr₂ hst₂))⟩
    | some block =>
      refine ⟨_, rfl, .of_lookup ho (.of_lookup hl ?_)⟩
      have hne : block ≠ [] := (hl.filled hw₁.filled).2 block rfl
      have hsub : (maxInsns - (l₁.hart.cpu.insnCount - start)).toNat = maxInsns.toNat - retired start l₁.hart :=
        BitVec.toNat_sub_of_le (BitVec.le_def.2 hr.le)
      have htake : block.take (maxInsns - (l₁.hart.cpu.insnCount - start)).toNat ≠ [] ∧
          retired start l₂.hart + (block.take (maxInsns - (l₁.hart.cpu.insnCount - start)).toNat).length ≤ maxInsns.toNat := by
        rw [hsub, retired_same hl.hart.insnCount, List.length_take]
        refine ⟨?_, by omega⟩
        rw [Ne, List.take_eq_nil_iff]
        rintro (h | h)
        · omega
        · exact hne h
      generalize block.take (maxInsns - (l₁.hart.cpu.insnCount - start)).toNat = block' at htake ⊢
      split_ifs
      · obtain ⟨h1, h2⟩ := untilCompiled_take (contains l₂.watch) l₁.hart.cpu.pc htake.1
        exact runBlock_descends hw₂ h1 (by omega) hst₂
      · exact runBlock_descends hw₂ htake.1 htake.2 hst₂

/-! ## Chunks -/

/-- **A chunk over cached blocks** ends, within the budget. -/
theorem runCachedCpu_ends (contains : S → U64 → Bool) (observe : S → U64 → Bool × S) (stopCapable : Bool) (hart : Machine VirtBus)
    {cache : CodePageCache} (hc : cache.Filled) (watch : S) :
    ∃ fuel, (runCachedCpu host fuel contains observe stopCapable maxInsns hart cache watch).isSome := by
  have hstart : Within (S := S) hart.cpu.insnCount maxInsns ⟨hart, cache, watch, 0, true⟩ :=
    ⟨by rw [retired_self]; exact Nat.zero_le _, hc⟩
  refine ends_of_wf (InvImage.wf (left hart.cpu.insnCount maxInsns) less_wf) (fun l hw => ?_) hstart
  obtain ⟨t, ht, hd⟩ := blockTurn_descends contains observe stopCapable hw
  exact ⟨t, ht, fun l' he => by subst he; exact hd⟩

/-- A chunk keeps within its budget, and an ECALL retires. -/
structure ChunkRun (maxInsns : U64) (h h' : Machine VirtBus) (stop : InterpreterStop) : Prop where
  retired : retired h.cpu.insnCount h' ≤ maxInsns.toNat
  ecall : stop = .cpu .ecall → 0 < Lish.retired h.cpu.insnCount h'

theorem run_chunk (host : Option HostFp) (n : ℕ) (h : Machine VirtBus) :
    ∃ k ≤ n, (h.run host n).2.cpu.insnCount = h.cpu.insnCount + BitVec.ofNat 64 k ∧ ((h.run host n).1 = .ecall → 0 < k) := by
  induction n generalizing h with
  | zero => exact ⟨0, le_rfl, (BitVec.add_zero _).symm, nofun⟩
  | succ n ih =>
    obtain ⟨ha, hstop⟩ := runOne_attempt host h
    rw [Machine.run]
    generalize h.runOne host = r at ha hstop ⊢
    obtain ⟨stop, h'⟩ := r
    dsimp only at ha hstop
    have hone : ∃ j ≤ 1, h'.cpu.insnCount = h.cpu.insnCount + BitVec.ofNat 64 j ∧ (stop = some .ecall → 0 < j) := by
      rcases ha.insnCount with hi | hi
      · exact ⟨1, le_rfl, hi, fun _ => Nat.one_pos⟩
      · refine ⟨0, Nat.zero_le _, hi.trans (BitVec.add_zero _).symm, fun he => ?_⟩
        rcases hstop hi with h | ⟨e, h⟩ <;> rw [he] at h <;> cases h
    obtain ⟨j, hj, hi, he⟩ := hone
    cases stop with
    | some stop => exact ⟨j, by omega, hi, fun h => he (congrArg some h)⟩
    | none =>
      obtain ⟨k, hk, hi', he'⟩ := ih h'
      refine ⟨j + k, by omega, ?_, fun h => by have := he' h; omega⟩
      rw [hi', hi, BitVec.add_assoc, ← BitVec.ofNat_add]

theorem runCpuUntil_chunk {fuel : ℕ} {compiled : Option (S → U64 → Bool × S)} {l : Stepping S} {r : InterpreterStop × Stepping S}
    (hr : runCpuUntil host fuel compiled maxInsns l = some r) : ChunkRun maxInsns l.hart r.2.hart r.1 := by
  cases compiled with
  | none =>
    obtain ⟨k, hk, hi, he⟩ := run_chunk host maxInsns.toNat l.hart
    have hmax := maxInsns.isLt
    obtain rfl := Option.some.inj hr
    have hret : retired l.hart.cpu.insnCount (l.hart.run host maxInsns.toNat).2 = k := by
      rw [retired_add hi (by rw [retired_self]; omega), retired_self, Nat.zero_add]
    exact ⟨hret.trans_le hk, fun h => hret ▸ he (InterpreterStop.cpu.inj h)⟩
  | some compiled =>
    have hr : Loop.run (stepUntil host compiled l.hart.cpu.insnCount maxInsns) fuel l = some r := hr
    refine Loop.run_invariant (J := fun s => retired l.hart.cpu.insnCount s.hart ≤ maxInsns.toNat)
      (Q := fun r => ChunkRun maxInsns l.hart r.2.hart r.1) ?_ ?_ (by rw [retired_self]; exact Nat.zero_le _) hr
    · exact fun s t hs ht => (stepUntil_retires ht hs).2
    · rintro s ⟨stop, s'⟩ hs ht
      obtain ⟨h1, h2⟩ := stepUntil_retires ht hs
      exact ⟨h1, fun he => Nat.zero_lt_of_lt (h2 he)⟩

theorem runCachedCpu_chunk {fuel : ℕ} {contains : S → U64 → Bool} {observe : S → U64 → Bool × S} {stopCapable : Bool}
    {hart : Machine VirtBus} {cache : CodePageCache} {watch : S} {r : InterpreterStop × Blocks S} (hc : cache.Filled)
    (hr : runCachedCpu host fuel contains observe stopCapable maxInsns hart cache watch = some r) :
    ChunkRun maxInsns hart r.2.hart r.1 ∧ r.2.cache.Filled := by
  have hstart : Within (S := S) hart.cpu.insnCount maxInsns ⟨hart, cache, watch, 0, true⟩ :=
    ⟨by rw [retired_self]; exact Nat.zero_le _, hc⟩
  refine Loop.run_invariant (J := Within hart.cpu.insnCount maxInsns)
    (Q := fun r => ChunkRun maxInsns hart r.2.hart r.1 ∧ r.2.cache.Filled) ?_ ?_ hstart hr
  · intro l l' hw ht
    obtain ⟨t, ht', hd⟩ := blockTurn_descends contains observe stopCapable hw
    cases ht.symm.trans ht'
    exact hd.1
  · rintro l ⟨stop, l'⟩ hw ht
    obtain ⟨t, ht', hd⟩ := blockTurn_descends contains observe stopCapable hw
    cases ht.symm.trans ht'
    exact ⟨⟨hd.1.retired, fun he => Nat.zero_lt_of_lt (hd.2 he)⟩, hd.1.filled⟩

/-- **A chunk** of any interpreter. -/
theorem Interpreter.run_chunk {fuel : ℕ} {m m' : VirtMachine} {watch watch' : S} {backend : Interpreter S} {stop : InterpreterStop}
    (hc : m.codeCache.Filled) (hr : backend.run host fuel maxInsns m watch = some (stop, m', watch')) :
    ChunkRun maxInsns m.hart m'.hart stop ∧ m'.codeCache.Filled := by
  cases backend with
  | legacy compiled =>
    obtain ⟨⟨stop', l⟩, hl, he⟩ := Option.map_eq_some_iff.1 hr
    cases he
    exact ⟨runCpuUntil_chunk hl, hc⟩
  | cached contains observe stopCapable =>
    obtain ⟨⟨stop', l⟩, hl, he⟩ := Option.map_eq_some_iff.1 hr
    cases he
    exact runCachedCpu_chunk hc hl

end Lish
