import PhpGraft.Token.Cursor

/-!
The bytes of a text. A cursor leaves a rest of the text behind it just when it stands between two
characters. A character of ASCII is one byte, and no byte of another character is in ASCII.
-/
namespace PhpGraft.Text

variable {s t u : Text} {c : Char} {n : Nat}

@[simp] theorem byteSize_nil : byteSize [] = 0 := rfl

@[simp] theorem byteSize_cons (c : Char) (t : Text) :
    byteSize (c :: t) = c.utf8Size + byteSize t := rfl

@[simp] theorem byteSize_append (s t : Text) : byteSize (s ++ t) = byteSize s + byteSize t := by
  induction s with
  | nil => exact (Nat.zero_add _).symm
  | cons c s ih => rw [List.cons_append, byteSize_cons, byteSize_cons, ih, Nat.add_assoc]

theorem byteSize_pos (h : t ≠ []) : 0 < t.byteSize := by
  obtain ⟨c, u, rfl⟩ := List.exists_cons_of_ne_nil h
  exact Nat.lt_of_lt_of_le c.utf8Size_pos (Nat.le_add_right _ _)

@[simp] theorem bytes_cons (c : Char) (t : Text) :
    bytes (c :: t) = String.utf8EncodeChar c ++ bytes t := rfl

theorem bytes_append (s t : Text) : bytes (s ++ t) = bytes s ++ bytes t := List.flatMap_append

@[simp] theorem length_bytes (t : Text) : t.bytes.length = t.byteSize := by
  induction t with
  | nil => rfl
  | cons c t ih =>
    rw [bytes_cons, List.length_append, String.length_utf8EncodeChar, ih, byteSize_cons]

/-! Cutting at a byte. -/

@[simp] theorem dropBytes?_zero (t : Text) : dropBytes? 0 t = some t := by
  cases t <;> rfl

theorem dropBytes?_append (s t : Text) : dropBytes? s.byteSize (s ++ t) = some t := by
  induction s with
  | nil => exact dropBytes?_zero t
  | cons c s ih =>
    obtain ⟨k, hk⟩ := Nat.exists_eq_succ_of_ne_zero (Nat.ne_of_gt (c.utf8Size_pos))
    have hsize : byteSize (c :: s) = k + byteSize s + 1 := by
      rw [byteSize_cons, hk]
      omega
    rw [hsize, List.cons_append, dropBytes?, if_pos (by omega),
      show k + byteSize s + 1 - c.utf8Size = byteSize s by omega]
    exact ih

theorem dropBytes?_eq_some : s.dropBytes? n = some t ↔ ∃ u, s = u ++ t ∧ n = u.byteSize := by
  constructor
  · intro h
    fun_induction dropBytes? n s with
    | case1 s =>
      cases h
      exact ⟨[], rfl, rfl⟩
    | case2 => cases h
    | case3 n c s hle ih =>
      obtain ⟨u, rfl, hu⟩ := ih h
      refine ⟨c :: u, rfl, ?_⟩
      rw [byteSize_cons]
      omega
    | case4 => cases h
  · rintro ⟨u, rfl, rfl⟩
    exact dropBytes?_append u t

theorem dropBytes?_add (h : s.dropBytes? n = some (u ++ t)) :
    s.dropBytes? (n + u.byteSize) = some t := by
  obtain ⟨v, rfl, rfl⟩ := dropBytes?_eq_some.1 h
  rw [← byteSize_append, ← List.append_assoc]
  exact dropBytes?_append _ t

theorem byteSize_of_dropBytes? (h : s.dropBytes? n = some t) : n + t.byteSize = s.byteSize := by
  obtain ⟨u, rfl, rfl⟩ := dropBytes?_eq_some.1 h
  exact (byteSize_append u t).symm

theorem drop_bytes (h : s.dropBytes? n = some t) : s.bytes.drop n = t.bytes := by
  obtain ⟨u, rfl, rfl⟩ := dropBytes?_eq_some.1 h
  rw [bytes_append, List.drop_left' (length_bytes u)]

theorem takeBytes?_append (s t : Text) : takeBytes? s.byteSize (s ++ t) = some s := by
  rw [takeBytes?, dropBytes?_append]
  simp

/-! Searching. -/

theorem spanBytes_eq (p : Char → Bool) (t : Text) : t.spanBytes p = byteSize (t.takeWhile p) := by
  induction t with
  | nil => rfl
  | cons c t ih =>
    rw [spanBytes] at ih ⊢
    rw [seek?]
    cases hc : p c with
    | false => simp [hc]
    | true =>
      rw [if_neg (by simp [hc]), List.takeWhile_cons_of_pos hc, byteSize_cons, byteSize_cons,
        ← ih]
      cases seek? (fun rest => !rest.head?.any p) t <;> simp

theorem startsWith_nil (t : Text) : t.startsWith [] = true := by
  cases t <;> rfl

theorem startsWith_cons_cons {d : Char} (t s : Text) :
    Text.startsWith (c :: t) (d :: s) = (d == c && t.startsWith s) := rfl

/-- Up to the first character `d`, or to the end. -/
theorem seek?_char (d : Char) (t : Text) :
    (∃ l r, t = l ++ d :: r ∧ d ∉ l ∧ t.seek? (·.startsWith [d]) = some l.byteSize) ∨
      (d ∉ t ∧ t.seek? (·.startsWith [d]) = none) := by
  induction t with
  | nil => exact .inr ⟨List.not_mem_nil, rfl⟩
  | cons c t ih =>
    by_cases hc : d = c
    · subst hc
      exact .inl ⟨[], t, rfl, List.not_mem_nil, by simp [seek?, startsWith_cons_cons, startsWith_nil]⟩
    have hseek : seek? (·.startsWith [d]) (c :: t) =
        (seek? (·.startsWith [d]) t).map (c.utf8Size + ·) := by
      rw [seek?, startsWith_cons_cons, beq_eq_false_iff_ne.2 hc]
      rfl
    rcases ih with ⟨l, r, rfl, hl, hs⟩ | ⟨ht, hs⟩
    · refine .inl ⟨c :: l, r, rfl, ?_, by rw [hseek, hs]; rfl⟩
      exact fun h => (List.mem_cons.1 h).elim hc hl
    · exact .inr ⟨fun h => (List.mem_cons.1 h).elim hc ht, by rw [hseek, hs]; rfl⟩

/-! ASCII. -/

theorem ascii_of_all (h : (t.all fun c => decide (c.toNat < 128)) = true) : ∀ c ∈ t, c.toNat < 128 :=
  fun c hc => of_decide_eq_true (List.all_eq_true.1 h c hc)

theorem ascii_of_isSpace (h : isSpace c = true) : c.toNat < 128 := by
  simp only [isSpace, Bool.or_eq_true, beq_iff_eq] at h
  rcases h with (((rfl | rfl) | rfl) | rfl) | rfl <;> decide

theorem utf8Size_of_ascii (h : c.toNat < 128) : c.utf8Size = 1 :=
  Char.utf8Size_eq_one_iff.2 (UInt32.le_iff_toNat_le.2 (Nat.le_of_lt_succ h))

theorem encode_of_ascii (h : c.toNat < 128) : String.utf8EncodeChar c = [c.toUInt8] :=
  String.utf8EncodeChar_eq_singleton (utf8Size_of_ascii h)

theorem toNat_toUInt8 (h : c.toNat < 128) : c.toUInt8.toNat = c.toNat :=
  (UInt32.toNat_toUInt8 _).trans (Nat.mod_eq_of_lt (Nat.lt_trans h (by decide)))

theorem byteSize_of_ascii (h : ∀ c ∈ t, c.toNat < 128) : t.byteSize = t.length := by
  induction t with
  | nil => rfl
  | cons c t ih =>
    obtain ⟨hc, ht⟩ := List.forall_mem_cons.1 h
    rw [byteSize_cons, utf8Size_of_ascii hc, ih ht, List.length_cons, Nat.add_comm]

theorem le_or_byte (a b : UInt8) (hb : 128 ≤ b.toNat) : 128 ≤ (a ||| b).toNat := by
  rw [UInt8.toNat_or]
  exact Nat.le_trans hb Nat.right_le_or

/-- Each byte of a character beyond ASCII is beyond ASCII. -/
theorem le_of_mem_encode (h : 128 ≤ c.toNat) : ∀ b ∈ String.utf8EncodeChar c, 128 ≤ b.toNat := by
  have hsize : c.utf8Size ≠ 1 := by
    intro hone
    exact absurd (UInt32.le_iff_toNat_le.1 (Char.utf8Size_eq_one_iff.1 hone)) (Nat.not_le.2 h)
  have hor : ∀ a b : UInt8, 128 ≤ b.toNat → 128 ≤ (a ||| b).toNat := le_or_byte
  rcases c.utf8Size_eq with hc | hc | hc | hc
  · exact absurd hc hsize
  · rw [String.utf8EncodeChar_eq_cons_cons hc]
    simp only [List.forall_mem_cons, List.not_mem_nil, false_implies, implies_true, and_true]
    exact ⟨hor _ _ (by decide), hor _ _ (by decide)⟩
  · rw [String.utf8EncodeChar_eq_cons_cons_cons hc]
    simp only [List.forall_mem_cons, List.not_mem_nil, false_implies, implies_true, and_true]
    exact ⟨hor _ _ (by decide), hor _ _ (by decide), hor _ _ (by decide)⟩
  · rw [String.utf8EncodeChar_eq_cons_cons_cons_cons hc]
    simp only [List.forall_mem_cons, List.not_mem_nil, false_implies, implies_true, and_true]
    exact ⟨hor _ _ (by decide), hor _ _ (by decide), hor _ _ (by decide), hor _ _ (by decide)⟩

end PhpGraft.Text

namespace PhpGraft.Cursor

open Text

variable {c : Char} {b : UInt8} {p : Char → Bool}

theorem isByte_of_ascii (h : c.toNat < 128) (p : Char → Bool) : isByte p c.toUInt8 = p c := by
  have hb : c.toUInt8 < 128 := UInt8.lt_iff_toNat_lt.2 (by rw [toNat_toUInt8 h]; exact h)
  rw [isByte, toNat_toUInt8 h, Char.ofNat_toNat, decide_eq_true hb, Bool.true_and]

theorem isByte_of_le (h : 128 ≤ b.toNat) (p : Char → Bool) : isByte p b = false := by
  have hb : ¬b < 128 := fun hlt => absurd (UInt8.lt_iff_toNat_lt.1 hlt) (Nat.not_lt.2 h)
  rw [isByte, decide_eq_false hb, Bool.false_and]

/-- The first byte of a text shows whether its first character is one of ASCII with property `p`. -/
theorem any_head_bytes (p : Char → Bool) (hp : ∀ c, p c = true → c.toNat < 128) (t : Text) :
    t.bytes.head?.any (isByte p) = t.head?.any p := by
  cases t with
  | nil => rfl
  | cons c t =>
    by_cases hc : c.toNat < 128
    · rw [bytes_cons, encode_of_ascii hc]
      exact isByte_of_ascii hc p
    · have hpc : p c = false := Bool.eq_false_iff.2 fun h => hc (hp c h)
      obtain ⟨b, bs, hb⟩ := List.exists_cons_of_ne_nil (String.utf8EncodeChar_ne_nil (c := c))
      have hle := le_of_mem_encode (Nat.not_lt.1 hc) b (hb ▸ List.mem_cons_self)
      rw [bytes_cons, hb]
      exact (isByte_of_le hle p).trans hpc.symm

end PhpGraft.Cursor
