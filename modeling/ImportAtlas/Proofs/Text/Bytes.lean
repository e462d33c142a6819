import ImportAtlas.Glob.Basic

/-!
# The bytes of a text

A character below 128 is one byte, and no other character has that byte among its bytes. So what
such bytes tell of a text is told by its characters.

* `utf8EncodeChar_of_lt`, `not_mem_utf8EncodeChar` — the two of them;
* `count_bytesOf` — the byte of such a character occurs as often as the character;
* `take_bytesOf` — the bytes in front of a character of the text.
-/

namespace ImportAtlas.Glob

variable {c d : Char}

/-- An ASCII character has one byte, its number. -/
theorem utf8EncodeChar_of_lt (hd : d.toNat < 128) :
    String.utf8EncodeChar d = [UInt8.ofNat d.toNat] := by
  unfold String.utf8EncodeChar
  exact if_pos (Nat.le_of_lt_succ hd)

/-- The byte of an ASCII character stands in no other character. A longer character has only bytes
of at least 128. -/
theorem not_mem_utf8EncodeChar (hd : d.toNat < 128) (hne : c ≠ d) :
    UInt8.ofNat d.toNat ∉ String.utf8EncodeChar c := by
  have hbyte : ∀ n < 256, UInt8.ofNat d.toNat = UInt8.ofNat n → d.toNat = n := by
    intro n hn heq
    have hnat := congrArg UInt8.toNat heq
    rwa [UInt8.toNat_ofNat', UInt8.toNat_ofNat', Nat.mod_eq_of_lt (by omega),
      Nat.mod_eq_of_lt hn] at hnat
  intro h
  unfold String.utf8EncodeChar at h
  dsimp only at h
  -- one case for each length of a character
  split at h
  · have hval := hbyte c.val.toNat (by omega) (List.mem_singleton.mp h)
    exact hne (Char.toNat_inj.mp hval.symm)
  · split at h
    · simp only [List.mem_cons, List.not_mem_nil, or_false] at h
      rcases h with h | h <;> exact absurd (hbyte _ (by omega) h) (by omega)
    · split at h
      · simp only [List.mem_cons, List.not_mem_nil, or_false] at h
        rcases h with h | h | h <;> exact absurd (hbyte _ (by omega) h) (by omega)
      · simp only [List.mem_cons, List.not_mem_nil, or_false] at h
        rcases h with h | h | h | h <;> exact absurd (hbyte _ (by omega) h) (by omega)

/-- So it is counted once, in that character. -/
theorem count_utf8EncodeChar (hd : d.toNat < 128) (c : Char) :
    (String.utf8EncodeChar c).count (UInt8.ofNat d.toNat) = if c = d then 1 else 0 := by
  split
  case isTrue hc => rw [hc, utf8EncodeChar_of_lt hd, List.count_singleton_self]
  case isFalse hc => exact List.count_eq_zero.mpr (not_mem_utf8EncodeChar hd hc)

/-- The bytes of a text, one character at a time. -/
theorem bytesOf_cons (c : Char) (x : List Char) :
    bytesOf (c :: x) = String.utf8EncodeChar c ++ bytesOf x :=
  List.flatMap_cons

theorem bytesOf_append (x y : List Char) : bytesOf (x ++ y) = bytesOf x ++ bytesOf y :=
  List.flatMap_append

/-- The byte of an ASCII character stands in the bytes of a text as often as the character in the
text. -/
theorem count_bytesOf (hd : d.toNat < 128) (t : List Char) :
    (bytesOf t).count (UInt8.ofNat d.toNat) = t.count d := by
  induction t with
  | nil => rfl
  | cons c t ih =>
    rw [bytesOf_cons, List.count_append, count_utf8EncodeChar hd, ih, List.count_cons]
    simp [Nat.add_comm]

/-- The bytes in front of a character are those of the characters in front of it. -/
theorem take_bytesOf (t : List Char) (n : Nat) :
    (bytesOf t).take (bytesOf (t.take n)).length = bytesOf (t.take n) := by
  have hcut : bytesOf t = bytesOf (t.take n) ++ bytesOf (t.drop n) := by
    rw [← bytesOf_append, List.take_append_drop]
  rw [hcut, List.take_left]

end ImportAtlas.Glob
