import Dowse.Sha256
import Mathlib.Tactic.Common

/-!
# The hash function of sup computes the standard

The words of the source may be wider than those of the standard; the lower halves of the
one follow the other through every operation, because none of them moves a bit from the upper
half down. The groups of eight calls exchange the roles of the variables where the
standard exchanges their values. A context has taken in a message when its state is that
after the complete blocks, its buffer begins with the others and its
counter has the length; an update of any size keeps this.
-/
namespace Dowse.Sha256
open BlockIteration Sha256Standard

variable {w : ℕ}

/-- The lower half of a word, which is all that ends up in the digest. -/
def lo (x : BitVec w) : Word := x.setWidth 32

section Words
variable (hw : 32 ≤ w) (x y z : BitVec w)
include hw

theorem lo_ofNat (n : ℕ) : lo (BitVec.ofNat w n) = BitVec.ofNat 32 n :=
  BitVec.setWidth_ofNat_of_le hw n

theorem lo_add : lo (x + y) = lo x + lo y := BitVec.setWidth_add x y hw

theorem lo_shiftLeft (n : ℕ) : lo (x <<< n) = lo x <<< n := by
  apply BitVec.eq_of_getLsbD_eq
  intro i hi
  have hiw : i < w := Nat.lt_of_lt_of_le hi hw
  have hin : i - n < 32 := Nat.lt_of_le_of_lt (Nat.sub_le i n) hi
  simp only [lo, BitVec.getLsbD_setWidth, BitVec.getLsbD_shiftLeft, hi, hiw, hin, decide_true,
    Bool.true_and]

omit hw in
theorem getLsbD_mask (i : ℕ) :
    (0xFFFFFFFF : BitVec w).getLsbD i = (decide (i < w) && decide (i < 32)) := by
  change (BitVec.ofNat w (2 ^ 32 - 1)).getLsbD i = _
  rw [BitVec.getLsbD_ofNat, Nat.testBit_two_pow_sub_one]

omit hw in
theorem lo_SHR (n : ℕ) : lo (SHR x n) = lo x >>> n := by
  apply BitVec.eq_of_getLsbD_eq
  intro i hi
  simp only [lo, SHR, BitVec.getLsbD_setWidth, BitVec.getLsbD_ushiftRight, BitVec.getLsbD_and,
    getLsbD_mask, hi, decide_true, Bool.true_and]
  rcases Nat.lt_or_ge (n + i) w with hlt | hge
  · rw [decide_eq_true hlt, Bool.true_and, Bool.and_comm]
  · rw [BitVec.getLsbD_of_ge x (n + i) hge, Bool.false_and, Bool.and_false]

theorem lo_ROTR {n : ℕ} (hn : n < 32) : lo (ROTR x n) = (lo x).rotateRight n := by
  have hor : lo (ROTR x n) = lo (SHR x n) ||| lo (x <<< (32 - n)) := BitVec.setWidth_or
  rw [hor, lo_SHR, lo_shiftLeft hw, BitVec.rotateRight_def, Nat.mod_eq_of_lt hn]

omit hw in
theorem lo_xor : lo (x ^^^ y) = lo x ^^^ lo y := BitVec.setWidth_xor

theorem lo_S0 : lo (S0 x) = smallSigma0 (lo x) := by
  rw [S0, lo_xor, lo_xor, lo_ROTR hw x (by decide), lo_ROTR hw x (by decide), lo_SHR]
  rfl

theorem lo_S1 : lo (S1 x) = smallSigma1 (lo x) := by
  rw [S1, lo_xor, lo_xor, lo_ROTR hw x (by decide), lo_ROTR hw x (by decide), lo_SHR]
  rfl

theorem lo_S2 : lo (S2 x) = bigSigma0 (lo x) := by
  rw [S2, lo_xor, lo_xor, lo_ROTR hw x (by decide), lo_ROTR hw x (by decide),
    lo_ROTR hw x (by decide)]
  rfl

theorem lo_S3 : lo (S3 x) = bigSigma1 (lo x) := by
  rw [S3, lo_xor, lo_xor, lo_ROTR hw x (by decide), lo_ROTR hw x (by decide),
    lo_ROTR hw x (by decide)]
  rfl

omit hw in
/-- The majority with one operation less than in the standard. -/
theorem lo_F0 : lo (F0 x y z) = maj (lo x) (lo y) (lo z) := by
  apply BitVec.eq_of_getLsbD_eq
  intro i hi
  simp only [lo, F0, maj, BitVec.getLsbD_setWidth, BitVec.getLsbD_or, BitVec.getLsbD_and,
    BitVec.getLsbD_xor, hi, decide_true, Bool.true_and]
  cases x.getLsbD i <;> cases y.getLsbD i <;> cases z.getLsbD i <;> rfl

omit hw in
/-- The choice without a complement, which would set the upper half. -/
theorem lo_F1 : lo (F1 x y z) = ch (lo x) (lo y) (lo z) := by
  apply BitVec.eq_of_getLsbD_eq
  intro i hi
  simp only [lo, F1, ch, BitVec.getLsbD_setWidth, BitVec.getLsbD_not, BitVec.getLsbD_and,
    BitVec.getLsbD_xor, hi, decide_true, Bool.true_and]
  cases x.getLsbD i <;> cases y.getLsbD i <;> cases z.getLsbD i <;> rfl

theorem lo_getUint32 (b : List UInt8) (i : ℕ) :
    lo (getUint32 b i : BitVec w) =
      word (b.getD i 0) (b.getD (i + 1) 0) (b.getD (i + 2) 0) (b.getD (i + 3) 0) := by
  apply BitVec.eq_of_getLsbD_eq
  intro j hj
  have hjw : j < w := Nat.lt_of_lt_of_le hj hw
  simp only [lo, getUint32, word, BitVec.getLsbD_setWidth, BitVec.getLsbD_or,
    BitVec.getLsbD_shiftLeft, BitVec.getLsbD_append, hj, hjw, decide_true, Bool.true_and]
  have hbyte (b : BitVec 8) (k : ℕ) (hk : 8 ≤ k) : b.getLsbD k = false :=
    BitVec.getLsbD_of_ge b k hk
  -- the byte that the bit is in
  obtain h | h | h | h : j < 8 ∨ (8 ≤ j ∧ j < 16) ∨ (16 ≤ j ∧ j < 24) ∨ 24 ≤ j := by omega
  all_goals grind

omit hw in
theorem setWidth_shiftRight {n : ℕ} (hn : n + 8 ≤ 32) :
    (x >>> n).setWidth 8 = (lo x >>> n).setWidth 8 := by
  apply BitVec.eq_of_getLsbD_eq
  intro i hi
  have hni : n + i < 32 := by omega
  simp only [lo, BitVec.getLsbD_setWidth, BitVec.getLsbD_ushiftRight, hi, hni, decide_true,
    Bool.true_and]

omit hw in
theorem putUint32_eq : putUint32 x = wordBytes (lo x) := by
  have hlow : x.setWidth 8 = (lo x).setWidth 8 := setWidth_shiftRight x (n := 0) (by decide)
  rw [putUint32, wordBytes, setWidth_shiftRight x (n := 24) (by decide),
    setWidth_shiftRight x (n := 16) (by decide), setWidth_shiftRight x (n := 8) (by decide), hlow]

end Words

def Regs.lo (v : Regs w) : Vars :=
  ⟨Sha256.lo v.A, Sha256.lo v.B, Sha256.lo v.C, Sha256.lo v.D, Sha256.lo v.E, Sha256.lo v.F,
    Sha256.lo v.G, Sha256.lo v.H⟩

theorem callConstants_eq : callConstants.map (BitVec.ofNat 32) = constants := by
  decide +kernel

theorem lo_K (hw : 32 ≤ w) : (K : List (BitVec w)).map lo = constants := by
  rw [← callConstants_eq, K, List.map_map]
  exact List.map_congr_left fun n _ => lo_ofNat hw n

theorem lo_getD (l : List (BitVec w)) (i : ℕ) : lo (l.getD i 0) = (l.map lo).getD i 0 := by
  have hzero : lo (0 : BitVec w) = 0 := BitVec.setWidth_zero 32 w
  rw [List.getD_eq_getElem?_getD, List.getD_eq_getElem?_getD, List.getElem?_map]
  cases l[i]? with
  | none => exact hzero
  | some x => rfl

section Process
variable (hw : 32 ≤ w)
include hw

theorem lo_R (W : List (BitVec w)) (t : ℕ) : lo (R W t) = scheduled (W.map lo) t := by
  simp only [R, lo_add hw, lo_S0 hw, lo_S1 hw, lo_getD]
  rfl

theorem lo_words (data : List UInt8) (k : ℕ) :
    (words data k : List (BitVec w)).map lo = schedule data k := by
  induction k with
  | zero =>
      rw [words, schedule, List.map_map]
      exact List.map_congr_left fun t _ => lo_getUint32 hw data (4 * t)
  | succ k ih => rw [words, schedule, List.map_append, ih, List.map_singleton, lo_R hw, ih]

/-- One call of `P` is a round, with the variables in the roles that they have in it. -/
theorem round_lo (a b c d e f g h x k : BitVec w) :
    roundStep ⟨lo a, lo b, lo c, lo d, lo e, lo f, lo g, lo h⟩ (lo k) (lo x) =
      ⟨lo (P a b c d e f g h x k).2, lo a, lo b, lo c, lo (P a b c d e f g h x k).1, lo e, lo f,
        lo g⟩ := by
  simp only [P, roundStep, lo_add hw, lo_S2 hw, lo_S3 hw, lo_F0, lo_F1]

/-- After eight calls every variable is back in the role that it had before them. -/
theorem lo_eightCalls (W : List (BitVec w)) (v s : Regs w) (t : ℕ)
    (hv : v.lo = rounds (K.map (lo (w := w))) (W.map lo) s.lo t) :
    (eightCalls W v t).lo = rounds (K.map (lo (w := w))) (W.map lo) s.lo (t + 8) := by
  simp only [rounds, ← hv, ← lo_getD]
  simp only [Regs.lo, round_lo hw]
  rfl

theorem lo_processState (s : Regs w) (data : List UInt8) :
    (processState s data).lo = compress s.lo data := by
  have hcalls : ([0, 8, 16, 24, 32, 40, 48, 56].foldl (eightCalls (words data 48)) s).lo =
      rounds constants (schedule data 48) s.lo 64 := by
    rw [← lo_K hw, ← lo_words hw]
    simp only [List.foldl_cons, List.foldl_nil]
    iterate 8 apply lo_eightCalls hw
    rfl
  rw [compress, ← hcalls, processState, Vars.add]
  simp only [Regs.lo, lo_add hw]
end Process

section Buffer
variable (buffer input : List UInt8) {offset : ℕ}

theorem take_memcpy (h : offset ≤ buffer.length) :
    (memcpy buffer offset input).take (offset + input.length) = buffer.take offset ++ input := by
  have hlen : (buffer.take offset ++ input).length = offset + input.length := by
    rw [List.length_append, List.length_take_of_le h]
  rw [memcpy, ← hlen, List.take_left]

theorem memcpy_of_le (h : buffer.length ≤ offset + input.length) :
    memcpy buffer offset input = buffer.take offset ++ input := by
  rw [memcpy, List.drop_eq_nil_of_le h, List.append_nil]

theorem length_memcpy (h : offset + input.length ≤ buffer.length) :
    (memcpy buffer offset input).length = buffer.length := by
  simp only [memcpy, List.length_append, List.length_take, List.length_drop]
  omega

end Buffer

theorem processBlocks_eq (ctx : Context w) (input : List UInt8) :
    processBlocks ctx input =
      ({ ctx with state := absorb 64 processState ctx.state input }, rest 64 input) := by
  induction input using block_induction (n := 64) (by decide) generalizing ctx with
  | short input hlt =>
      rw [processBlocks, if_neg (Nat.not_le.mpr hlt), absorb_of_lt hlt, rest_of_lt hlt]
  | block input hle ih =>
      rw [processBlocks, if_pos hle, ih, absorb_of_le (by decide) hle, rest_of_le (by decide) hle]
      rfl

/-- The context has taken in the message: the complete blocks are in the state, the others in
the buffer, and the length is in the counter. -/
structure Holds (ctx : Context w) (msg : List UInt8) : Prop where
  state : ctx.state.lo = absorb 64 compress initialHash msg
  pending : ctx.buffer.take (msg.length % 64) = rest 64 msg
  room : ctx.buffer.length = 64
  total0 : ctx.total0.toNat = msg.length % 2 ^ 32
  total1 : lo ctx.total1 = BitVec.ofNat 32 (msg.length / 2 ^ 32)

/-- The initial words of the source are those of the standard. -/
theorem lo_starts (hw : 32 ≤ w) (ctx : Context w) : (sha256Starts ctx).state.lo = initialHash := by
  have hroots : initialHash = ⟨0x6A09E667, 0xBB67AE85, 0x3C6EF372, 0xA54FF53A, 0x510E527F,
      0x9B05688C, 0x1F83D9AB, 0x5BE0CD19⟩ := by decide +kernel
  rw [hroots]
  ext1 <;> exact lo_ofNat hw _

theorem holds_starts (hw : 32 ≤ w) {ctx : Context w} (h : ctx.buffer.length = 64) :
    Holds (sha256Starts ctx) [] where
  state := by rw [absorb_of_lt (by decide), lo_starts hw]
  pending := List.take_zero
  room := h
  total0 := BitVec.toNat_zero
  total1 := BitVec.setWidth_zero 32 w

section Counter
variable {ctx : Context w} {msg : List UInt8}

theorem toNat_ofNat_of_lt (hw : 32 ≤ w) {n : ℕ} (hn : n < 2 ^ 32) : (BitVec.ofNat w n).toNat = n :=
  (BitVec.toNat_ofNat n w).trans
    (Nat.mod_eq_of_lt (Nat.lt_of_lt_of_le hn (Nat.pow_le_pow_right (by decide) hw)))

theorem Holds.left (h : Holds ctx msg) (hw : 32 ≤ w) : ctx.left = msg.length % 64 := by
  have hmask : (0x3F : BitVec w).toNat = 2 ^ 6 - 1 := toNat_ofNat_of_lt hw (by decide)
  rw [Context.left, BitVec.toNat_and, hmask, Nat.and_two_pow_sub_one_eq_mod, h.total0]
  exact Nat.mod_mod_of_dvd _ (by decide)

theorem addTotal_total0 (h : Holds ctx msg) (hw : 32 ≤ w) {n : ℕ} (hn : n < 2 ^ 32) :
    (addTotal ctx (BitVec.ofNat w n)).total0.toNat = (msg.length + n) % 2 ^ 32 := by
  have hmask : (0xFFFFFFFF : BitVec w).toNat = 2 ^ 32 - 1 := toNat_ofNat_of_lt hw (by decide)
  rw [addTotal, BitVec.toNat_and, hmask, Nat.and_two_pow_sub_one_eq_mod, BitVec.toNat_add,
    toNat_ofNat_of_lt hw hn, h.total0, Nat.mod_mod_of_dvd _ (Nat.pow_dvd_pow 2 hw),
    Nat.mod_add_mod]

/-- The lower part of the counter is less than what was added exactly when it wrapped. -/
theorem addTotal_total1 (h : Holds ctx msg) (hw : 32 ≤ w) {n : ℕ} (hn : n < 2 ^ 32) :
    lo (addTotal ctx (BitVec.ofNat w n)).total1 = BitVec.ofNat 32 ((msg.length + n) / 2 ^ 32) := by
  have hcarry : (addTotal ctx (BitVec.ofNat w n)).total0 < BitVec.ofNat w n ↔
      (msg.length + n) / 2 ^ 32 = msg.length / 2 ^ 32 + 1 := by
    rw [BitVec.lt_def, addTotal_total0 h hw hn, toNat_ofNat_of_lt hw hn]
    omega
  have htotal1 : (addTotal ctx (BitVec.ofNat w n)).total1 =
      if (addTotal ctx (BitVec.ofNat w n)).total0 < BitVec.ofNat w n then ctx.total1 + 1
      else ctx.total1 := rfl
  rw [htotal1]
  split_ifs with hlt
  · have hone : lo (1 : BitVec w) = BitVec.ofNat 32 1 := lo_ofNat hw 1
    rw [lo_add hw, h.total1, hone, ← BitVec.ofNat_add, hcarry.mp hlt]
  · rw [h.total1]
    congr 1
    rw [hcarry] at hlt
    omega

end Counter

/-- The buffer after the last `memcpy` of an update. -/
theorem keep_buffer {ctx : Context w} {left : ℕ} {input : List UInt8}
    (h : left + input.length ≤ ctx.buffer.length) :
    (keep ctx left input).buffer.take (left + input.length) = ctx.buffer.take left ++ input ∧
      (keep ctx left input).buffer.length = ctx.buffer.length := by
  unfold keep
  split_ifs with hne
  · exact ⟨take_memcpy _ _ (Nat.le_of_add_right_le h), length_memcpy _ _ h⟩
  · rw [List.length_eq_zero_iff.mp (not_not.mp hne)]
    exact ⟨(List.append_nil _).symm, rfl⟩

@[simp] theorem keep_state (ctx : Context w) (left : ℕ) (input : List UInt8) :
    (keep ctx left input).state = ctx.state := by
  unfold keep
  split_ifs <;> rfl

@[simp] theorem keep_total0 (ctx : Context w) (left : ℕ) (input : List UInt8) :
    (keep ctx left input).total0 = ctx.total0 := by
  unfold keep
  split_ifs <;> rfl

@[simp] theorem keep_total1 (ctx : Context w) (left : ℕ) (input : List UInt8) :
    (keep ctx left input).total1 = ctx.total1 := by
  unfold keep
  split_ifs <;> rfl

/-- An update absorbs the bytes that wait and the input together. In the buffer it keeps what
is left, behind bytes that wait there already if no block was completed. -/
theorem Holds.sha256Update_eq {ctx : Context w} {msg input : List UInt8} (h : Holds ctx msg)
    (hw : 32 ≤ w) (hne : input.length ≠ 0) :
    ∃ (buffer : List UInt8) (left : ℕ) (input' : List UInt8),
      sha256Update ctx input =
        keep ⟨(addTotal ctx (BitVec.ofNat w input.length)).total0,
          (addTotal ctx (BitVec.ofNat w input.length)).total1,
          absorb 64 processState ctx.state (rest 64 msg ++ input), buffer⟩ left input' ∧
      buffer.length = 64 ∧ left ≤ 64 ∧
      buffer.take left ++ input' = rest 64 (rest 64 msg ++ input) := by
  have hlt : msg.length % 64 < 64 := Nat.mod_lt _ (by decide)
  have hrest : (rest 64 msg).length = msg.length % 64 := length_rest 64 msg
  simp only [sha256Update, if_neg hne, h.left hw]
  split_ifs with hfill
  · -- the block in the buffer is completed
    obtain ⟨hleft, hle⟩ := hfill
    have hblock : memcpy ctx.buffer (msg.length % 64) (input.take (64 - msg.length % 64)) =
        (rest 64 msg ++ input).take 64 := by
      have hfull : msg.length % 64 + (input.take (64 - msg.length % 64)).length = 64 := by
        rw [List.length_take_of_le hle]
        omega
      have hshort : (rest 64 msg).length ≤ 64 := Nat.le_of_lt (hrest ▸ hlt)
      rw [memcpy_of_le _ _ (Nat.le_of_eq (h.room.trans hfull.symm)), h.pending, List.take_append,
        hrest, List.take_of_length_le hshort]
    have hdrop : input.drop (64 - msg.length % 64) = (rest 64 msg ++ input).drop 64 := by
      have hnil : (rest 64 msg).drop 64 = [] :=
        List.drop_eq_nil_of_le (Nat.le_of_lt (hrest ▸ hlt))
      rw [List.drop_append, hrest, hnil, List.nil_append]
    have hle' : 64 ≤ (rest 64 msg ++ input).length := by
      rw [List.length_append, hrest]
      omega
    refine ⟨(rest 64 msg ++ input).take 64, 0, rest 64 (rest 64 msg ++ input), ?_, ?_,
      Nat.zero_le _, rfl⟩
    · rw [absorb_of_le (by decide) hle', rest_of_le (by decide) hle', ← hblock, ← hdrop,
        processBlocks_eq]
      rfl
    · exact List.length_take_of_le hle'
  · rw [processBlocks_eq]
    by_cases hleft : msg.length % 64 = 0
    · have hnil : rest 64 msg = [] := List.length_eq_zero_iff.mp (hrest.trans hleft)
      rw [hnil, List.nil_append, hleft]
      exact ⟨ctx.buffer, 0, rest 64 input, rfl, h.room, Nat.zero_le _, rfl⟩
    · have hshort : (rest 64 msg ++ input).length < 64 := by
        rw [List.length_append, hrest]
        omega
      have hinput : input.length < 64 := by
        rw [List.length_append] at hshort
        omega
      rw [absorb_of_lt hinput, rest_of_lt hinput, absorb_of_lt hshort, rest_of_lt hshort]
      refine ⟨ctx.buffer, msg.length % 64, input, rfl, h.room, Nat.le_of_lt hlt, ?_⟩
      rw [h.pending]

theorem Holds.update {ctx : Context w} {msg input : List UInt8} (h : Holds ctx msg) (hw : 32 ≤ w)
    (hlen : input.length < 2 ^ 32) : Holds (sha256Update ctx input) (msg ++ input) := by
  by_cases hne : input.length = 0
  · rw [sha256Update, if_pos hne, List.length_eq_zero_iff.mp hne, List.append_nil]
    exact h
  obtain ⟨buffer, left, input', hupdate, hroom, hleft, hpending⟩ := h.sha256Update_eq hw hne
  have hlength : left + input'.length = (msg ++ input).length % 64 := by
    rw [← length_rest, rest_append (by decide), ← hpending, List.length_append,
      List.length_take_of_le (hroom ▸ hleft)]
  have hfits : left + input'.length ≤ 64 := by
    rw [hlength]
    exact Nat.le_of_lt (Nat.mod_lt _ (by decide))
  rw [hupdate]
  generalize hctx : Context.mk _ _ _ buffer = ctx'
  obtain ⟨htake, hroom'⟩ : _ ∧ (keep ctx' left input').buffer.length = ctx'.buffer.length :=
    keep_buffer (by rw [← hctx]; exact Nat.le_trans hfits (Nat.le_of_eq hroom.symm))
  subst hctx
  constructor
  · rw [keep_state, absorb_append (by decide) initialHash msg, ← h.state]
    exact absorb_map (by decide) (lo_processState hw) _ _
  · rw [← hlength, htake, rest_append (by decide) msg]
    exact hpending
  · exact hroom'.trans hroom
  · rw [keep_total0, List.length_append]
    exact addTotal_total0 h hw hlen
  · rw [keep_total1, List.length_append]
    exact addTotal_total1 h hw hlen


theorem holds_updates (hw : 32 ≤ w) {chunks : List (List UInt8)}
    (hlen : ∀ chunk ∈ chunks, chunk.length < 2 ^ 32) {ctx : Context w} {msg : List UInt8}
    (h : Holds ctx msg) : Holds (chunks.foldl sha256Update ctx) (msg ++ chunks.flatten) := by
  induction chunks generalizing ctx msg with
  | nil =>
      rw [List.flatten_nil, List.append_nil]
      exact h
  | cons chunk chunks ih =>
      obtain ⟨hchunk, hchunks⟩ := List.forall_mem_cons.mp hlen
      rw [List.foldl_cons, List.flatten_cons, ← List.append_assoc]
      exact ih hchunks (h.update hw hchunk)

section Finish
variable {ctx : Context w} {msg : List UInt8}

/-- The bytes of the padding before the length. -/
theorem take_sha256Padding (length : ℕ) :
    sha256Padding.take (if length % 64 < 56 then 56 - length % 64 else 120 - length % 64) =
      0x80 :: List.replicate (zeros length) 0 := by
  have hpadn : (if length % 64 < 56 then 56 - length % 64 else 120 - length % 64) =
      zeros length + 1 := by
    unfold zeros
    split_ifs <;> omega
  have hle : zeros length ≤ 63 := Nat.le_of_lt_succ (Nat.mod_lt _ (by decide))
  rw [hpadn, sha256Padding, List.take_succ_cons, List.take_replicate, Nat.min_eq_left hle]

theorem Holds.low (h : Holds ctx msg) (hw : 32 ≤ w) :
    lo (ctx.total0 <<< 3) = BitVec.ofNat 32 (8 * msg.length) := by
  have htotal0 : lo ctx.total0 = BitVec.ofNat 32 msg.length := by
    apply BitVec.eq_of_toNat_eq
    rw [lo, BitVec.toNat_setWidth, h.total0, BitVec.toNat_ofNat, Nat.mod_mod]
  apply BitVec.eq_of_toNat_eq
  rw [lo_shiftLeft hw, htotal0, BitVec.toNat_shiftLeft, BitVec.toNat_ofNat, BitVec.toNat_ofNat,
    Nat.shiftLeft_eq]
  omega

/-- The bits that the lower part of the length in bits loses are the last three of the
upper part. -/
theorem Holds.high (h : Holds ctx msg) (hw : 32 ≤ w) :
    lo (ctx.total0 >>> 29 ||| ctx.total1 <<< 3) = BitVec.ofNat 32 (8 * msg.length / 2 ^ 32) := by
  have hor : lo (ctx.total0 >>> 29 ||| ctx.total1 <<< 3) =
      lo (ctx.total0 >>> 29) ||| lo (ctx.total1 <<< 3) := BitVec.setWidth_or
  have hright : (lo (ctx.total0 >>> 29)).toNat = msg.length % 2 ^ 32 / 2 ^ 29 := by
    rw [lo, BitVec.toNat_setWidth, BitVec.toNat_ushiftRight, h.total0, Nat.shiftRight_eq_div_pow]
    omega
  have hleft : (lo (ctx.total1 <<< 3)).toNat = (msg.length / 2 ^ 32 % 2 ^ 29) <<< 3 := by
    rw [lo_shiftLeft hw, h.total1, BitVec.toNat_shiftLeft, BitVec.toNat_ofNat, Nat.shiftLeft_eq,
      Nat.shiftLeft_eq]
    omega
  apply BitVec.eq_of_toNat_eq
  rw [hor, BitVec.toNat_or, hright, hleft, Nat.or_comm,
    ← Nat.shiftLeft_add_eq_or_of_lt (by omega), Nat.shiftLeft_eq, BitVec.toNat_ofNat]
  omega

theorem Holds.finish (h : Holds ctx msg) (hw : 32 ≤ w) : sha256Finish ctx = digest msg := by
  have hmsglen : putUint32 (ctx.total0 >>> 29 ||| ctx.total1 <<< 3) ++
      putUint32 (ctx.total0 <<< 3) = lengthBytes msg.length := by
    rw [putUint32_eq, putUint32_eq, h.high hw, h.low hw, lengthBytes]
  have hlength : (lengthBytes msg.length).length < 2 ^ 32 := by
    have height : (lengthBytes msg.length).length = 8 := rfl
    rw [height]
    decide
  have hpadding : (0x80 :: List.replicate (zeros msg.length) (0 : UInt8)).length < 2 ^ 32 := by
    have hle : zeros msg.length < 64 := Nat.mod_lt _ (by decide)
    rw [List.length_cons, List.length_replicate]
    omega
  have hall := (h.update hw hpadding).update hw hlength
  simp only [sha256Finish, h.left hw, take_sha256Padding, hmsglen]
  simp only [putUint32_eq]
  rw [digest, pad, ← hall.state]
  rfl

end Finish

/-- For a message that is fed in pieces of less than 4 GiB, the code computes the digest of
the standard, however wide its words are and whatever was in its buffer. -/
theorem sha256_standard (hw : 32 ≤ w) (ctx : Context w) (hbuffer : ctx.buffer.length = 64)
    (chunks : List (List UInt8)) (hlen : ∀ chunk ∈ chunks, chunk.length < 2 ^ 32) :
    sha256Finish (chunks.foldl sha256Update (sha256Starts ctx)) = digest chunks.flatten :=
  (holds_updates hw hlen (holds_starts hw hbuffer)).finish hw

/-- A context with words of 64 bits as it may be found on the stack. -/
def dirty : Context 64 := ⟨7, 7, ⟨1, 2, 3, 4, 5, 6, 7, 8⟩, List.replicate 64 0xff⟩

theorem sha256_standard_abc :
    sha256Finish ([[0x61], [], [0x62, 0x63]].foldl sha256Update (sha256Starts dirty)) =
      [0xba, 0x78, 0x16, 0xbf, 0x8f, 0x01, 0xcf, 0xea, 0x41, 0x41, 0x40, 0xde, 0x5d, 0xae, 0x22,
       0x23, 0xb0, 0x03, 0x61, 0xa3, 0x96, 0x17, 0x7a, 0x9c, 0xb4, 0x10, 0xff, 0x61, 0xf2, 0x00,
       0x15, 0xad] := by
  rw [sha256_standard (by decide) dirty rfl _ (by decide)]
  decide +kernel

end Dowse.Sha256
