import Jonj.Lib.CChar

/-!
# The one-at-a-time hash

`joaat_buf` mixes the bytes into the hash and then closes it. `JONJ_JOAATUpdate` calls it for every
piece.
-/
namespace Jonj.Digest

/-- The body of the loop of `joaat_buf`. -/
def joaatStep (hval : UInt32) (c : UInt8) : UInt32 :=
  let hval := hval + c.toUInt32
  let hval := hval + (hval <<< 10)
  hval ^^^ (hval >>> 6)

/-- What `joaat_buf` does behind the loop. -/
def joaatClose (hval : UInt32) : UInt32 :=
  let hval := hval + (hval <<< 3)
  let hval := hval ^^^ (hval >>> 11)
  hval + (hval <<< 15)

def joaatBuf (buf : Bytes) (hval : UInt32) : UInt32 := joaatClose (buf.foldl joaatStep hval)

def joaatUpdate (state : UInt32) (input : Bytes) : UInt32 := joaatBuf input state

/-- `JONJ_JOAATFinal`: the highest byte comes first. -/
def joaatFinal (state : UInt32) : Bytes :=
  [state >>> 24, state >>> 16, state >>> 8, state].map UInt32.toUInt8

/-- From `JONJ_JOAATInit` on. -/
def joaat (pieces : List Bytes) : Bytes := joaatFinal (pieces.foldl joaatUpdate 0)

/-! ### The steps lose nothing -/

theorem toNat_add_shiftLeft (x k : UInt32) :
    (x + (x <<< k)).toNat = x.toNat * (1 + 2 ^ (k.toNat % 32)) % 2 ^ 32 := by
  rw [UInt32.toNat_add, UInt32.toNat_shiftLeft, Nat.shiftLeft_eq, Nat.add_mod_mod, Nat.mul_add,
    Nat.mul_one]

section shifts

variable {k : UInt32} (shifts : k.toNat % 32 ≠ 0)
include shifts

theorem add_shiftLeft_injective : Function.Injective fun x : UInt32 => x + (x <<< k) := by
  intro x y same
  have odd : Odd (1 + 2 ^ (k.toNat % 32)) := odd_one.add_even (even_two.pow_of_ne_zero shifts)
  have equal : x.toNat * (1 + 2 ^ (k.toNat % 32)) ≡
      y.toNat * (1 + 2 ^ (k.toNat % 32)) [MOD 2 ^ 32] := by
    rw [Nat.ModEq, ← toNat_add_shiftLeft, ← toNat_add_shiftLeft]
    exact congrArg UInt32.toNat same
  have equal := equal.cancel_right_of_coprime (odd.coprime_two_left.pow_left 32)
  exact UInt32.toNat_inj.mp (equal.eq_of_lt_of_lt x.toNat_lt y.toNat_lt)

theorem xor_shiftRight_injective : Function.Injective fun x : UInt32 => x ^^^ (x >>> k) := by
  intro x y same
  -- the bits in which the two differ are their own shift
  have shift : (x ^^^ y) >>> k = x ^^^ y := by
    have cancel := congrArg (x ^^^ · ^^^ (y >>> k)) same
    simp only [← UInt32.xor_assoc, UInt32.xor_self, UInt32.zero_xor] at cancel
    simpa [UInt32.shiftRight_xor, UInt32.xor_assoc] using cancel
  have half := congrArg UInt32.toNat shift
  rw [UInt32.toNat_shiftRight, Nat.shiftRight_eq_div_pow] at half
  have zero : (x ^^^ y).toNat = 0 := by
    by_contra some
    exact absurd half (Nat.div_lt_self (Nat.pos_of_ne_zero some) (Nat.one_lt_two_pow shifts)).ne
  exact UInt32.xor_eq_zero_iff.mp (UInt32.toNat_inj.mp zero)

end shifts

private theorem joaatStep_injective (c : UInt8) : Function.Injective (joaatStep · c) :=
  (xor_shiftRight_injective (by decide)).comp
    ((add_shiftLeft_injective (by decide)).comp fun _ _ => (UInt32.add_left_inj _).mp)

private theorem joaatClose_injective : Function.Injective joaatClose :=
  (add_shiftLeft_injective (by decide)).comp
    ((xor_shiftRight_injective (by decide)).comp (add_shiftLeft_injective (by decide)))

theorem joaatFinal_injective : Function.Injective joaatFinal := by
  intro x y same
  simp only [joaatFinal, List.map_cons, List.cons.injEq, ← UInt8.toNat_inj, UInt32.toNat_toUInt8,
    UInt32.toNat_shiftRight, Nat.shiftRight_eq_div_pow, UInt32.reduceToNat, Nat.reduceMod,
    Nat.reducePow] at same
  have boundX := x.toNat_lt
  have boundY := y.toNat_lt
  apply UInt32.toNat_inj.mp
  omega

private theorem foldl_joaatStep_injective (buf : Bytes) :
    Function.Injective (buf.foldl joaatStep) := by
  induction buf with
  | nil => exact Function.injective_id
  | cons c buf ih => exact ih.comp (joaatStep_injective c)

/-! ### Closing changes the hash

Of a hash that stays the same, `9 * hval` is determined by its lowest eleven bits. -/

/-- The inverse of `9 * (1 + 2 ^ 15)`. -/
def unmix : Nat := 2982612537

/-- What `n >>> 11` must be, up to the bits that are known of `n`. -/
def shifted (bits n : Nat) : Nat := (unmix * n ^^^ n) % 2 ^ bits

def determined (low : Nat) : Nat :=
  low + 2 ^ 11 * shifted 22 (low + 2 ^ 11 * shifted 11 low)

private theorem shifted_mod (bits n : Nat) : shifted bits (n % 2 ^ bits) = shifted bits n := by
  rw [shifted, shifted, Nat.xor_mod_two_pow, Nat.xor_mod_two_pow, Nat.mul_mod_mod, Nat.mod_mod]

private theorem mod_shifted {bits : Nat} (few : bits ≤ 32) (n : Nat) :
    shifted 32 n % 2 ^ bits = shifted bits n :=
  Nat.mod_mod_of_dvd _ (pow_dvd_pow 2 few)

private theorem eq_determined {n : Nat} (bound : n < 2 ^ 32) (stays : n / 2 ^ 11 = shifted 32 n) :
    n = determined (n % 2 ^ 11) := by
  have middle : n / 2 ^ 11 % 2 ^ 11 = shifted 11 (n % 2 ^ 11) := by
    rw [shifted_mod, stays, mod_shifted (by decide)]
  have low : n % 2 ^ 22 = n % 2 ^ 11 + 2 ^ 11 * shifted 11 (n % 2 ^ 11) := by
    rw [← middle, ← Nat.mod_mul, ← pow_add]
  have high : n / 2 ^ 11 = shifted 22 (n % 2 ^ 22) := by
    rw [shifted_mod, ← mod_shifted (by decide), ← stays, Nat.mod_eq_of_lt (by omega)]
  rw [determined, ← low, ← high, Nat.mod_add_div]

private theorem determined_spec : ∀ low : Fin 2048,
    determined low / 2 ^ 11 = shifted 32 (determined low) → determined low = 0 := by
  decide +kernel

private theorem joaatClose_eq_self {hval : UInt32} (same : joaatClose hval = hval) : hval = 0 := by
  let y := hval + (hval <<< 3)
  let z := y ^^^ (y >>> 11)
  have mixed : z + (z <<< 15) = hval := same
  have first : y.toNat = hval.toNat * 9 % 2 ^ 32 := toNat_add_shiftLeft hval 3
  have last : hval.toNat = z.toNat * 32769 % 2 ^ 32 := by
    rw [← mixed]
    exact toNat_add_shiftLeft z 15
  have inverse : z.toNat = unmix * y.toNat % 2 ^ 32 := by
    have bound := z.toNat_lt
    rw [first, last, unmix]
    omega
  have shift : z.toNat = y.toNat ^^^ y.toNat / 2 ^ 11 := by
    rw [UInt32.toNat_xor, UInt32.toNat_shiftRight, Nat.shiftRight_eq_div_pow]
    rfl
  have stays : y.toNat / 2 ^ 11 = shifted 32 y.toNat := by
    rw [shifted, Nat.xor_mod_two_pow, ← inverse, Nat.mod_eq_of_lt y.toNat_lt, shift, Nat.xor_comm,
      ← Nat.xor_assoc, Nat.xor_self, Nat.zero_xor]
  have whole := eq_determined y.toNat_lt stays
  have zero : y.toNat = 0 := by
    rw [whole] at stays ⊢
    exact determined_spec ⟨_, Nat.mod_lt _ (by decide)⟩ stays
  exact add_shiftLeft_injective (k := 3) (by decide) (UInt32.toNat_inj.mp zero)

/-! ### Pieces -/

private theorem joaat_pieces_iff (pieces : List Bytes) (last : Bytes) :
    joaat (pieces ++ [last]) = joaat [pieces.flatten ++ last] ↔
      pieces.foldl joaatUpdate 0 = pieces.flatten.foldl joaatStep 0 := by
  simp [joaat, joaatUpdate, joaatBuf, joaatFinal_injective.eq_iff, joaatClose_injective.eq_iff,
    (foldl_joaatStep_injective last).eq_iff]

/-- The state in front of a boundary, if the loop gives 0 at all boundaries up to it. -/
theorem foldl_joaatUpdate_eq_zero {pieces : List Bytes}
    (zero : ∀ n ≤ pieces.length, (pieces.take n).flatten.foldl joaatStep 0 = 0) :
    pieces.foldl joaatUpdate 0 = 0 := by
  induction pieces using List.reverseRecOn with
  | nil => rfl
  | append_singleton pieces last ih =>
    have inner : pieces.foldl joaatUpdate 0 = 0 := ih fun n inside => by
      have earlier := zero n (by simp; omega)
      rwa [List.take_append_of_le_length inside] at earlier
    have atFront := zero pieces.length (by simp)
    have atEnd := zero (pieces ++ [last]).length le_rfl
    rw [List.take_left] at atFront
    rw [List.take_length, List.flatten_append, List.foldl_append, atFront] at atEnd
    rw [List.foldl_append, inner]
    have closed : joaatUpdate 0 last = joaatClose (last.foldl joaatStep 0) := rfl
    simp only [List.flatten_cons, List.flatten_nil, List.append_nil] at atEnd
    rw [List.foldl_cons, List.foldl_nil, closed, atEnd]
    rfl

/-- However far the pieces are fed, the digest is the one of the whole, if and only if the loop
gives 0 at every boundary between them. One cut is harmless if and only if this holds of what stands
before it; it does if there are only NUL bytes. -/
theorem joaat_take_iff (pieces : List Bytes) (front back : Bytes) (count : Nat) :
    ((∀ n, joaat (pieces.take n) = joaat [(pieces.take n).flatten]) ↔
      ∀ n < pieces.length, (pieces.take n).flatten.foldl joaatStep 0 = 0) ∧
    (joaat [front, back] = joaat [front ++ back] ↔ front.foldl joaatStep 0 = 0) ∧
    (List.replicate count 0).foldl joaatStep 0 = 0 := by
  refine ⟨⟨fun same n inside => ?_, fun zero n => ?_⟩, ?_, ?_⟩
  · have here : (pieces.take n).foldl joaatUpdate 0 = joaatUpdate 0 (pieces.take n).flatten :=
      joaatFinal_injective (same n)
    have next := same (n + 1)
    rw [List.take_succ_eq_append_getElem inside, List.flatten_append, List.flatten_singleton,
      joaat_pieces_iff, here] at next
    exact joaatClose_eq_self next
  · induction n with
    | zero =>
      rw [List.take_zero]
      decide
    | succ n ih =>
      by_cases inside : n < pieces.length
      · rw [List.take_succ_eq_append_getElem inside, List.flatten_append, List.flatten_singleton,
          joaat_pieces_iff, zero n inside]
        refine foldl_joaatUpdate_eq_zero fun m earlier => ?_
        rw [List.length_take] at earlier
        rw [List.take_take, min_eq_left (by omega)]
        exact zero m (by omega)
      · rwa [List.take_of_length_le (by omega), ← List.take_of_length_le (not_lt.mp inside)]
  · have cut := joaat_pieces_iff [front] back
    have closed : [front].foldl joaatUpdate 0 = joaatClose (front.foldl joaatStep 0) := rfl
    rw [List.flatten_singleton, closed] at cut
    refine cut.trans ⟨joaatClose_eq_self, fun zero => ?_⟩
    rw [zero]
    decide
  · induction count with
    | zero => rfl
    | succ count ih =>
      have still : joaatStep 0 0 = 0 := by decide
      rwa [List.replicate_succ, List.foldl_cons, still]

/-- `"a"` and `"b"`, and an empty piece behind `"a"`. -/
theorem joaat_closes : joaat [[97], [98]] ≠ joaat [[97, 98]] ∧ joaat [[97], []] ≠ joaat [[97]] := by
  decide

end Jonj.Digest
