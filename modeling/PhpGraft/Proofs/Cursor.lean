import PhpGraft.Proofs.Bytes
import PhpGraft.Proofs.Moving

/-!
The rules of the byte cursor, each against the rule that counts characters: where the cursor stands
in front of a character, it comes to stand in front of one.
-/
namespace PhpGraft.Cursor

open Text Lexer

variable {s t u w r label : Text} {c d : Char} {start pos n : Nat}

/-! Open tags. -/

theorem toUInt8_inj (hc : c.toNat < 128) (hd : d.toNat < 128) : c.toUInt8 = d.toUInt8 ↔ c = d := by
  refine ⟨fun h => ?_, congrArg _⟩
  have hnat := congrArg UInt8.toNat h
  rw [toNat_toUInt8 hc, toNat_toUInt8 hd] at hnat
  exact Char.toNat_inj.1 hnat

/-- A byte string of ASCII is found just where its text is. -/
theorem isPrefixOf_bytes (hw : ∀ c ∈ w, c.toNat < 128) (t : Text) :
    (bytes w).isPrefixOf t.bytes = t.startsWith w := by
  induction w generalizing t with
  | nil => rfl
  | cons c w ih =>
    obtain ⟨hc, hw⟩ := List.forall_mem_cons.1 hw
    rw [bytes_cons, encode_of_ascii hc]
    cases t with
    | nil => rfl
    | cons d t =>
      rw [bytes_cons, startsWith_cons_cons, ← ih hw]
      by_cases hd : d.toNat < 128
      · rw [encode_of_ascii hd, List.singleton_append, List.singleton_append, List.isPrefixOf]
        congr 1
        rw [Bool.eq_iff_iff, beq_iff_eq, beq_iff_eq]
        exact toUInt8_inj hc hd
      · have hne : c ≠ d := fun h => hd (h ▸ hc)
        obtain ⟨b, bs, hb⟩ := List.exists_cons_of_ne_nil (String.utf8EncodeChar_ne_nil (c := d))
        have hle := le_of_mem_encode (Nat.not_lt.1 hd) b (hb ▸ List.mem_cons_self)
        have hbyte : c.toUInt8 ≠ b := by
          intro h
          rw [← h, toNat_toUInt8 hc] at hle
          omega
        rw [hb, List.singleton_append, List.cons_append, List.isPrefixOf,
          beq_eq_false_iff_ne.2 hne, beq_eq_false_iff_ne.2 hbyte, Bool.false_and, Bool.false_and]

/-- What holds of each ASCII character, one by one. -/
theorem forall_ascii {P : Char → Prop} (h : ∀ n : Fin 128, P (Char.ofNat n)) (hc : c.toNat < 128) :
    P c := by
  have := h ⟨c.toNat, hc⟩
  rwa [Char.ofNat_toNat] at this

theorem lowerByte_toUInt8 (hc : c.toNat < 128) : lowerByte c.toUInt8 = c.toLower.toUInt8 :=
  forall_ascii (P := fun c => lowerByte c.toUInt8 = c.toLower.toUInt8) (by decide) hc

theorem toLower_of_le (hc : 128 ≤ c.toNat) : c.toLower = c := by
  refine dif_neg ?_
  rintro ⟨-, hle⟩
  exact absurd (UInt32.le_iff_toNat_le.1 hle) (Nat.not_le.2 (Nat.lt_of_lt_of_le (by decide) hc))

theorem ascii_of_toLower (hc : c.toLower.toNat < 128) : c.toNat < 128 := by
  by_contra h
  rw [toLower_of_le (Nat.not_lt.1 h)] at hc
  exact h hc

theorem toLower_of_ascii (hc : c.toNat < 128) : c.toLower.toNat < 128 :=
  forall_ascii (P := fun c => c.toLower.toNat < 128) (by decide) hc

theorem lower_bytes (hw : ∀ c ∈ w, c.toNat < 128) (t : Text) :
    (t.bytes.take w.length).map lowerByte = bytes w ↔ lower (t.take w.length) = w := by
  induction w generalizing t with
  | nil => exact iff_of_true rfl rfl
  | cons c w ih =>
    obtain ⟨hc, hw⟩ := List.forall_mem_cons.1 hw
    rw [bytes_cons, encode_of_ascii hc]
    cases t with
    | nil => exact iff_of_false (by rintro ⟨⟩) (by rintro ⟨⟩)
    | cons d t =>
      by_cases hd : d.toNat < 128
      · rw [bytes_cons, encode_of_ascii hd]
        simp only [List.singleton_append, List.length_cons, List.take_succ_cons, List.map_cons, lower,
          List.cons.injEq, lowerByte_toUInt8 hd, toUInt8_inj (toLower_of_ascii hd) hc]
        exact and_congr_right fun _ => ih hw t
      · obtain ⟨b, bs, hb⟩ := List.exists_cons_of_ne_nil (String.utf8EncodeChar_ne_nil (c := d))
        have hle := le_of_mem_encode (Nat.not_lt.1 hd) b (hb ▸ List.mem_cons_self)
        rw [bytes_cons, hb]
        simp only [List.cons_append, List.nil_append, List.length_cons, List.take_succ_cons,
          List.map_cons, lower, List.cons.injEq]
        refine iff_of_false (fun h => ?_) (fun h => ?_)
        · rw [lowerByte, isByte_of_le hle, if_neg Bool.false_ne_true] at h
          rw [h.1, toNat_toUInt8 hc] at hle
          omega
        · rw [toLower_of_le (Nat.not_lt.1 hd)] at h
          exact hd (h.1 ▸ hc)

/-- A text that reads as a word of ASCII but for its case takes one byte for each character. -/
theorem ascii_of_lower (hw : ∀ c ∈ w, c.toNat < 128) (h : lower t = w) :
    ∀ c ∈ t, c.toNat < 128 := by
  intro c hc
  exact ascii_of_toLower (hw _ (h ▸ List.mem_map_of_mem hc))

theorem drop_bytes_of_ascii (h : ∀ c ∈ u, c.toNat < 128) (t : Text) :
    (bytes (u ++ t)).drop u.length = t.bytes := by
  rw [bytes_append, List.drop_left' ((length_bytes u).trans (byteSize_of_ascii h))]

theorem ascii_of_eq (hd : d.toNat < 128) (c : Char) (h : (c == d) = true) : c.toNat < 128 :=
  beq_iff_eq.1 h ▸ hd

theorem tagBreak?_bytes (c : Char) (u : Text) : tagBreak? (bytes (c :: u)) =
    if c == '\r' && u.head?.any (· == '\n') then some 2 else if isSpace c then some 1 else none := by
  have hcr := any_head_bytes (· == '\r') (ascii_of_eq (by decide)) (c :: u)
  have hspace := any_head_bytes isSpace (fun _ => ascii_of_isSpace) (c :: u)
  have hlf := any_head_bytes (· == '\n') (ascii_of_eq (by decide)) u
  by_cases hc : c.toNat < 128
  · rw [bytes_cons, encode_of_ascii hc, List.singleton_append] at hcr hspace ⊢
    rw [tagBreak?, hlf]
    simp only [List.head?_cons, Option.any_some] at hcr hspace
    rw [hcr, hspace]
  · have hne : (c == '\r') = false := Bool.eq_false_iff.2 fun h => hc (ascii_of_eq (by decide) c h)
    have hnot : isSpace c = false := Bool.eq_false_iff.2 fun h => hc (ascii_of_isSpace h)
    obtain ⟨b, bs, hb⟩ := List.exists_cons_of_ne_nil (String.utf8EncodeChar_ne_nil (c := c))
    rw [bytes_cons, hb, List.cons_append] at hcr hspace ⊢
    simp only [List.head?_cons, Option.any_some, hne, hnot] at hcr hspace
    rw [tagBreak?, hcr, hspace, hne, hnot, Bool.false_and, Bool.false_and]

theorem openTag?_lower (h : ∀ s, t ≠ '?' :: '=' :: s) : openTag? '<' t =
    if lower (t.take 4) = "?php" then
      match t.drop 4 with
      | [] => some 4
      | c :: u => if c == '\r' && u.head?.any (· == '\n') then some 6
        else if isSpace c then some 5 else none
    else none := by
  rw [openTag?_of_ne h]
  generalize t.drop 4 = v
  refine if_congr Iff.rfl ?_ rfl
  split
  · rfl
  · rfl
  · rename_i c u hne
    refine (if_neg ?_).symm
    simp only [Bool.and_eq_true, beq_iff_eq, not_and]
    rintro rfl hu
    cases u with
    | nil => cases hu
    | cons d u => exact hne u rfl (beq_iff_eq.1 hu ▸ rfl)

/-- Only letters stand for others in another case. -/
theorem eq_of_toLower (hd : d.isLower = false) (h : c.toLower = d) : c = d := by
  subst h
  by_cases hc : c.toNat < 128
  · exact forall_ascii (P := fun c => c.toLower.isLower = false → c = c.toLower) (by decide) hc hd
  · exact (toLower_of_le (Nat.not_lt.1 hc)).symm

/-- The word of an open tag, whatever its case, and what is behind it. -/
theorem split_of_lower (h : lower ((c :: t).take 5) = "<?php") :
    c = '<' ∧ ∃ p v, t = p ++ v ∧ p.length = 4 ∧ lower p = "?php" ∧ (∀ d ∈ c :: p, d.toNat < 128) := by
  obtain ⟨hc, hp⟩ : c.toLower = '<' ∧ lower (t.take 4) = "?php" := List.cons.inj h
  have hlen : (t.take 4).length = 4 := by
    have := congrArg List.length hp
    rwa [lower, List.length_map] at this
  refine ⟨eq_of_toLower (by decide) hc, t.take 4, t.drop 4, (List.take_append_drop 4 t).symm, hlen, hp, ?_⟩
  exact ascii_of_lower (w := "<?php") (ascii_of_all rfl) h

theorem openTag?_word (p v : Text) (hlen : p.length = 4) (hp : lower p = "?php") :
    openTag? '<' (p ++ v) =
      match v with
      | [] => some 4
      | c :: u => if c == '\r' && u.head?.any (· == '\n') then some 6
        else if isSpace c then some 5 else none := by
  have hne : ∀ s, p ++ v ≠ '?' :: '=' :: s := by
    rintro s h
    obtain ⟨a, b, q, rfl⟩ : ∃ a b q, p = a :: b :: q := by
      match p, hlen with
      | [a, b, c, d], _ => exact ⟨a, b, [c, d], rfl⟩
    cases h
    cases hp
  rw [openTag?_lower hne, List.take_left' hlen, List.drop_left' hlen, if_pos hp]
  cases v <;> rfl

theorem openTag?_eq_none (hshort : ¬Text.startsWith (c :: t) "<?=" = true)
    (hlong : ¬lower ((c :: t).take 5) = "<?php") : openTag? c t = none := by
  unfold openTag?
  split
  · exact absurd rfl hshort
  · refine if_neg fun h => hlong ?_
    change Char.toLower '<' :: lower (t.take 4) = _
    rw [h]
    rfl
  · rfl

theorem openTagSize?_bytes (c : Char) (t : Text) :
    openTagSize? (bytes (c :: t)) = (openTag? c t).map (· + 1) := by
  have hlower := lower_bytes (w := "<?php") (ascii_of_all rfl) (c :: t)
  rw [openTagSize?, isPrefixOf_bytes (ascii_of_all rfl)]
  by_cases hshort : Text.startsWith (c :: t) "<?=" = true
  · obtain ⟨u, hu⟩ := List.isPrefixOf_iff_prefix.1 hshort
    cases hu
    rw [if_pos hshort]
    rfl
  rw [if_neg hshort]
  by_cases hlong : lower ((c :: t).take 5) = "<?php"
  · obtain ⟨rfl, p, v, rfl, hlen, hp, hascii⟩ := split_of_lower hlong
    have hdrop : (bytes ('<' :: (p ++ v))).drop 5 = v.bytes := by
      have := drop_bytes_of_ascii hascii v
      rwa [List.length_cons, hlen] at this
    have hlength : ¬(bytes ('<' :: (p ++ v))).length < 5 := by
      rw [← List.cons_append, length_bytes, byteSize_append, byteSize_of_ascii hascii,
        List.length_cons, hlen]
      omega
    have hword : (((bytes ('<' :: (p ++ v))).take 5).map lowerByte != bytes "<?php") = false :=
      bne_eq_false_iff_eq.2 (hlower.2 hlong)
    rw [hword, decide_eq_false hlength, Bool.or_false, if_neg Bool.false_ne_true, hdrop,
      openTag?_word p v hlen hp]
    cases v with
    | nil => rfl
    | cons d u =>
      rw [tagBreak?_bytes]
      dsimp only
      split
      · rfl
      · split <;> rfl
  · have hword : (((bytes (c :: t)).take 5).map lowerByte != bytes "<?php") = true :=
      bne_iff_ne.2 fun h => hlong (hlower.1 h)
    rw [hword, Bool.or_true, if_pos rfl, openTag?_eq_none hshort hlong]
    rfl

theorem byteSize_openTag (h : openTag? c t = some n) : byteSize (c :: t.take n) = n + 1 := by
  by_cases hshort : Text.startsWith (c :: t) "<?=" = true
  · obtain ⟨u, hu⟩ := List.isPrefixOf_iff_prefix.1 hshort
    cases hu
    cases h
    rfl
  by_cases hlong : lower ((c :: t).take 5) = "<?php"
  · obtain ⟨rfl, p, v, rfl, hlen, hp, hascii⟩ := split_of_lower hlong
    rw [openTag?_word p v hlen hp] at h
    have hsize : ∀ w r : Text, v = w ++ r → (∀ d ∈ w, d.toNat < 128) → n = 4 + w.length →
        byteSize ('<' :: (p ++ v).take n) = n + 1 := by
      rintro w r rfl hw rfl
      rw [← List.append_assoc, List.take_left' (by rw [List.length_append, hlen]),
        ← List.cons_append, byteSize_append, byteSize_of_ascii hascii, byteSize_of_ascii hw,
        List.length_cons, hlen]
      omega
    cases v with
    | nil => exact hsize [] [] rfl nofun (Option.some.inj h).symm
    | cons d u =>
      dsimp only at h
      split at h
      · rename_i hbreak
        obtain ⟨hd, hu⟩ := Bool.and_eq_true_iff.1 hbreak
        cases u with
        | nil => cases hu
        | cons e u =>
          obtain rfl : d = '\r' := beq_iff_eq.1 hd
          obtain rfl : e = '\n' := beq_iff_eq.1 hu
          exact hsize ['\r', '\n'] u rfl (ascii_of_all rfl) (Option.some.inj h).symm
      · split at h
        · rename_i hspace
          exact hsize [d] u rfl (List.forall_mem_singleton.2 (ascii_of_isSpace hspace))
            (Option.some.inj h).symm
        · cases h
  · rw [openTag?_eq_none hshort hlong] at h
    cases h

/-! Text outside of code. -/

theorem opensTag_cons (c : Char) (t : Text) : opensTag (c :: t) = (openTag? c t).isSome := by
  rw [opensTag, openTagSize?_bytes, Option.isSome_map]
  cases h : (openTag? c t).isSome with
  | false => exact Bool.and_false _
  | true =>
    rw [Bool.and_true]
    by_contra hstart
    by_cases hshort : Text.startsWith (c :: t) "<?=" = true
    · obtain ⟨u, hu⟩ := List.isPrefixOf_iff_prefix.1 hshort
      cases hu
      exact hstart rfl
    by_cases hlong : lower ((c :: t).take 5) = "<?php"
    · obtain ⟨rfl, p, v, rfl, hlen, hp, -⟩ := split_of_lower hlong
      cases p with
      | nil => cases hlen
      | cons a p =>
        obtain rfl : a = '?' := eq_of_toLower (by decide) (List.cons.inj hp).1
        exact hstart rfl
    · rw [openTag?_eq_none hshort hlong] at h
      cases h

theorem seek?_opensTag (t : Text) :
    (t.seek? opensTag).getD t.byteSize = byteSize (t.take (htmlSize t)) := by
  induction t with
  | nil => rfl
  | cons c t ih =>
    rw [seek?, opensTag_cons, htmlSize]
    cases (openTag? c t).isSome with
    | true => rfl
    | false =>
      rw [if_neg Bool.false_ne_true, if_neg Bool.false_ne_true, List.take_succ_cons, byteSize_cons,
        byteSize_cons, ← ih]
      cases seek? opensTag t <;> rfl

theorem html_eq (h : s.dropBytes? start = some (c :: t)) :
    html s start = some ((scanHtml c t).1, start + byteSize (c :: t.take (scanHtml c t).2)) := by
  have hsize := byteSize_of_dropBytes? h
  rw [html, h]
  dsimp only [Option.bind_eq_bind, Option.bind_some, pure]
  rw [openTagSize?_bytes, scanHtml]
  cases ho : openTag? c t with
  | some n => 
    dsimp only [Option.map_some]
    rw [byteSize_openTag ho]
  | none =>
    have hseek := seek?_opensTag (c :: t)
    rw [htmlSize, ho, if_neg (by decide), List.take_succ_cons] at hseek
    dsimp only [Option.map_none]
    rw [← hseek]
    cases seek? opensTag (c :: t) with
    | none => rw [Option.getD_none, hsize]
    | some n => rfl

/-! Comments. -/

theorem seek?_commentEnd (t : Text) :
    (t.seek? (·.startsWith ['*', '/'])).map (· + 2) =
      (commentSize? t).map fun n => byteSize (t.take n) := by
  fun_induction commentSize? t with
  | case1 => rfl
  | case2 t => rfl
  | case3 c t hne ih =>
    have hstart : Text.startsWith (c :: t) ['*', '/'] = false := by
      refine Bool.eq_false_iff.2 fun h => ?_
      obtain ⟨r, hr⟩ := List.isPrefixOf_iff_prefix.1 h
      cases hr
      exact hne r rfl rfl
    have := congrArg (Option.map (c.utf8Size + ·)) ih
    rw [seek?, hstart, if_neg Bool.false_ne_true]
    simpa only [Option.map_map, Function.comp_def, List.take_succ_cons, byteSize_cons,
      Nat.add_assoc] using this

theorem isDoc_eq (u : Text) : isDoc ('/' :: '*' :: u) =
    some (Text.startsWith ('*' :: u) ['*', '*'] && (u.drop 1).head?.any isSpace) := by
  rw [isDoc]
  cases u with
  | nil => rfl
  | cons d u =>
    by_cases hd : d = '*'
    · subst hd
      exact congrArg (Option.map _) (dropBytes?_append ['/', '*', '*'] u)
    · simp [startsWith_cons_cons, Ne.symm hd]

theorem comment_eq (h : s.dropBytes? start = some ('/' :: '*' :: t)) :
    comment s start = some ((commentSize? t).map fun n =>
      (if Text.startsWith ('*' :: t) ['*', '*'] && (t.drop 1).head?.any isSpace then .docComment
        else .blockComment, start + byteSize ('/' :: '*' :: t.take n))) := by
  have hinside : dropBytes? 2 ('/' :: '*' :: t) = some t := dropBytes?_append ['/', '*'] t
  have hseek := seek?_commentEnd t
  rw [comment, h]
  dsimp only [Option.bind_eq_bind, Option.bind_some, pure]
  rw [isDoc_eq]
  dsimp only [Option.bind_some]
  rw [hinside]
  dsimp only [Option.bind_some]
  generalize seek? (·.startsWith ['*', '/']) t = k at hseek ⊢
  cases hu : commentSize? t with
  | none =>
    rw [hu] at hseek
    rw [Option.map_eq_none_iff.1 hseek]
    rfl
  | some n =>
    rw [hu] at hseek
    obtain ⟨m, rfl, hm⟩ := Option.map_eq_some_iff.1 hseek
    have hsize : byteSize ('/' :: '*' :: t.take n) = m + 4 := by
      rw [byteSize_cons, byteSize_cons, show '/'.utf8Size = 1 from rfl,
        show '*'.utf8Size = 1 from rfl]
      dsimp only at hm
      omega
    dsimp only [Option.map_some]
    rw [hsize]

theorem takeBytes?_takeWhile (p : Char → Bool) (t : Text) :
    t.takeBytes? (byteSize (t.takeWhile p)) = some (t.takeWhile p) := by
  have := takeBytes?_append (t.takeWhile p) (t.dropWhile p)
  rwa [List.takeWhile_append_dropWhile] at this

theorem takeWhile_all {p : Char → Bool} (h : ∀ c ∈ t, p c = true) : t.takeWhile p = t := by
  have : (t ++ []).takeWhile p = t ++ [].takeWhile p := List.takeWhile_append_of_pos h
  rwa [List.append_nil, List.takeWhile_nil, List.append_nil] at this

theorem takeWhile_newline {l : Text} (h : '\n' ∉ l) (r : Text) :
    (l ++ '\n' :: r).takeWhile (· != '\n') = l := by
  have hl : ∀ c ∈ l, (c != '\n') = true := fun c hc => bne_iff_ne.2 fun he => h (he ▸ hc)
  rw [List.takeWhile_append_of_pos hl, List.takeWhile_cons_of_neg (by decide), List.append_nil]

/-- The end of a line: its line break or the end of the text. -/
theorem lineStop_eq (t : Text) : (t.seek? (·.startsWith ['\n'])).getD t.byteSize =
    byteSize (t.takeWhile (· != '\n')) := by
  rcases seek?_char '\n' t with ⟨l, r, rfl, hl, hs⟩ | ⟨ht, hs⟩
  · rw [hs, takeWhile_newline hl]
    rfl
  · have hall : ∀ c ∈ t, (c != '\n') = true := fun c hc => bne_iff_ne.2 fun he => ht (he ▸ hc)
    rw [hs, takeWhile_all hall]
    rfl

theorem seek?_closeTag (t : Text) :
    (seek? (·.startsWith ['?', '>']) (t.takeWhile (· != '\n'))).getD (byteSize (t.takeWhile (· != '\n'))) =
      byteSize (t.take (lineCommentSize t)) := by
  fun_induction lineCommentSize t with
  | case1 => rfl
  | case2 => rfl
  | case3 => rfl
  | case4 c t hc hne ih => 
    have hline : (c :: t).takeWhile (· != '\n') = c :: t.takeWhile (· != '\n') :=
      List.takeWhile_cons_of_pos (bne_iff_ne.2 hc)
    have hstart : Text.startsWith (c :: t.takeWhile (· != '\n')) ['?', '>'] = false := by
      refine Bool.eq_false_iff.2 fun h => ?_
      obtain ⟨r, hr⟩ := List.isPrefixOf_iff_prefix.1 h
      obtain ⟨rfl, hr⟩ := List.cons.inj hr
      cases t with
      | nil => cases hr
      | cons d t =>
        rw [List.takeWhile_cons] at hr
        split at hr
        · cases hr
          exact hne t rfl rfl
        · cases hr
    rw [hline, seek?, hstart, if_neg Bool.false_ne_true, List.take_succ_cons, byteSize_cons,
      byteSize_cons, ← ih]
    cases seek? (·.startsWith ['?', '>']) (t.takeWhile (· != '\n')) <;> rfl

theorem lineComment_eq (h : s.dropBytes? start = some (c :: t)) (hn : c ≠ '\n') (hc : c ≠ '?') :
    lineComment s start = some (start + byteSize (c :: t.take (lineCommentSize t))) := by
  have hsize : lineCommentSize (c :: t) = lineCommentSize t + 1 :=
    lineCommentSize_cons hn fun _ he => absurd he hc
  rw [lineComment, h]
  dsimp only [Option.bind_eq_bind, Option.bind_some, pure]
  rw [lineStop_eq, takeBytes?_takeWhile]
  dsimp only [Option.bind_some]
  rw [seek?_closeTag, hsize, List.take_succ_cons]

/-! Names and variables. -/

theorem eatName_eq (h : s.dropBytes? pos = some t) :
    eatName s pos = some (pos + byteSize (t.takeWhile isNameChar)) := by
  rw [eatName, h]
  exact congrArg (fun n => some (pos + n)) (spanBytes_eq isNameChar t)

theorem leadsName_cons (hd : d.toNat < 128) (c : Char) (t : Text) :
    leadsName d (c :: t) = some (c == d && startsName t) := by
  rw [leadsName, startsWith_cons_cons, startsWith_nil, Bool.and_true]
  by_cases hc : d = c
  · subst hc
    have hdrop : dropBytes? 1 (d :: t) = some t := by
      have := dropBytes?_append [d] t
      rwa [byteSize_cons, utf8Size_of_ascii hd] at this
    rw [hdrop, beq_self_eq_true, if_pos rfl, Bool.true_and]
    rfl
  · rw [beq_eq_false_iff_ne.2 hc, beq_eq_false_iff_ne.2 (Ne.symm hc)]
    rfl

/-- A name goes on behind its first part if a backslash and another part follow. -/
theorem nameSize_eq_part (t : Text) : nameSize t =
    (t.takeWhile isNameChar).length +
      match t.dropWhile isNameChar with
      | [] => 0
      | c :: u => if c == '\\' && startsName u then nameSize u + 1 else 0 := by
  induction t with
  | nil => rfl
  | cons c t ih =>
    rw [nameSize]
    cases hc : isNameChar c with
    | true =>
      rw [List.takeWhile_cons_of_pos hc, List.dropWhile_cons_of_pos hc, List.length_cons,
        Bool.true_or, if_pos rfl, ih]
      omega
    | false =>
      have hneg : ¬isNameChar c = true := by rw [hc]; exact Bool.false_ne_true
      rw [List.takeWhile_cons_of_neg hneg, List.dropWhile_cons_of_neg hneg, Bool.false_or]
      exact (Nat.zero_add _).symm

theorem nameParts_eq (h : s.dropBytes? pos = some t) :
    nameParts s pos = some (pos + byteSize (t.take (nameSize t))) := by
  induction hn : t.length using Nat.strongRecOn generalizing pos t with
  | _ n ih =>
  have hsplit : t.takeWhile isNameChar ++ t.dropWhile isNameChar = t :=
    List.takeWhile_append_dropWhile
  have hstop : s.dropBytes? (pos + byteSize (t.takeWhile isNameChar)) =
      some (t.dropWhile isNameChar) := dropBytes?_add (hsplit.symm ▸ h)
  have hlen := congrArg List.length hsplit
  rw [nameParts, eatName_eq h]
  dsimp only [Option.bind_eq_bind, Option.bind_some]
  rw [hstop, nameSize_eq_part]
  generalize t.takeWhile isNameChar = a at hsplit hlen hstop ⊢
  generalize t.dropWhile isNameChar = b at hsplit hlen hstop ⊢
  subst hsplit
  dsimp only [Option.bind_some]
  cases b with
  | nil =>
    change _ = some (pos + byteSize (List.take a.length (a ++ [])))
    rw [List.take_left]
    rfl
  | cons c u =>
    rw [leadsName_cons (by decide)]
    dsimp only [Option.bind_some]
    cases hgo : c == '\\' && startsName u with
    | false =>
      rw [if_neg Bool.false_ne_true, if_neg Bool.false_ne_true, Nat.add_zero, List.take_left]
      rfl
    | true =>
      obtain rfl : c = '\\' := beq_iff_eq.1 (Bool.and_eq_true_iff.1 hgo).1
      have hnext : s.dropBytes? (pos + byteSize a + 1) = some u := dropBytes?_add (u := ['\\']) hstop
      rw [if_pos rfl, if_pos rfl, ih u.length (by simp [← hn]; omega) hnext rfl,
        List.take_length_add_append, List.take_succ_cons, byteSize_append, byteSize_cons,
        show '\\'.utf8Size = 1 from rfl, Nat.add_assoc, Nat.add_assoc]

theorem name_eq (h : s.dropBytes? start = some (c :: t))
    (hc : isNameStart c = true ∨ (c = '\\' ∧ startsName t = true)) :
    name s start = some (start + byteSize (c :: t.take (nameSize t))) := by
  rw [name, h]
  dsimp only [Option.bind_eq_bind, Option.bind_some]
  rw [startsWith_cons_cons, startsWith_nil, Bool.and_true]
  by_cases hslash : c = '\\'
  · subst hslash
    have hnext : s.dropBytes? (start + 1) = some t := dropBytes?_add (u := ['\\']) h
    rw [if_pos (beq_self_eq_true _), nameParts_eq hnext, byteSize_cons, Nat.add_assoc]
    rfl
  · have hname : isNameChar c = true :=
      Bool.or_eq_true_iff.2 (.inl (hc.resolve_right fun h => hslash h.1))
    have hne : ('\\' == c) = false := beq_eq_false_iff_ne.2 (Ne.symm hslash)
    rw [if_neg (by rw [hne]; exact Bool.false_ne_true), nameParts_eq h, nameSize, hname,
      Bool.true_or, if_pos rfl, List.take_succ_cons]

/-! Numbers and strings. -/

theorem ascii_of_isAlphanum (h : c.isAlphanum = true) : c.toNat < 128 := by
  have hle : ∀ d : Char, d.toNat < 128 → c.val ≤ d.val → c.toNat < 128 := fun d hd hcd =>
    Nat.lt_of_le_of_lt (UInt32.le_iff_toNat_le.1 hcd) hd
  rcases Bool.or_eq_true_iff.1 h with h | h
  · rcases Bool.or_eq_true_iff.1 h with h | h
    · exact hle 'Z' (by decide) (of_decide_eq_true h).2
    · exact hle 'z' (by decide) (of_decide_eq_true (Bool.and_eq_true_iff.1 h).2)
  · exact hle '9' (by decide) (of_decide_eq_true (Bool.and_eq_true_iff.1 h).2)

theorem ascii_of_isDigit (h : c.isDigit = true) : c.toNat < 128 :=
  ascii_of_isAlphanum (Bool.or_eq_true_iff.2 (.inr h))

theorem numberBytes_eq (t : Text) : numberBytes t.bytes = byteSize (t.take (numberSize t)) := by
  induction t with
  | nil => rfl
  | cons c t ih =>
    rw [numberSize]
    by_cases hc : c.toNat < 128
    · rw [bytes_cons, encode_of_ascii hc, List.singleton_append, numberBytes, isByte_of_ascii hc,
        isByte_of_ascii hc, isByte_of_ascii hc, any_head_bytes _ (fun _ => ascii_of_isDigit), ih]
      split
      · rw [List.take_succ_cons, byteSize_cons, utf8Size_of_ascii hc, Nat.add_comm]
      · rfl
    · obtain ⟨b, bs, hb⟩ := List.exists_cons_of_ne_nil (String.utf8EncodeChar_ne_nil (c := c))
      have hle := le_of_mem_encode (Nat.not_lt.1 hc) b (hb ▸ List.mem_cons_self)
      have hnot : ∀ p : Char → Bool, (∀ c, p c = true → c.toNat < 128) → p c = false :=
        fun p hp => Bool.eq_false_iff.2 fun h => hc (hp c h)
      rw [bytes_cons, hb, List.cons_append, numberBytes, isByte_of_le hle, isByte_of_le hle,
        isByte_of_le hle, hnot Char.isAlphanum (fun _ => ascii_of_isAlphanum),
        hnot (· == '_') (ascii_of_eq (by decide)), hnot (· == '.') (ascii_of_eq (by decide))]
      rfl

theorem quotedBytes?_cons {quote b : UInt8} (hb : isByte (· == '\\') b = false) (bs : List UInt8) :
    quotedBytes? quote (b :: bs) =
      if b = quote then some 1 else (quotedBytes? quote bs).map (· + 1) := by
  rw [quotedBytes?.eq_def]
  dsimp only
  rw [hb, if_neg Bool.false_ne_true]

/-- The rest of a character, which is beyond ASCII, neither ends a string nor hides its end. -/
theorem quotedBytes?_skip {quote : UInt8} (hq : quote.toNat < 128) {bs : List UInt8}
    (hbs : ∀ b ∈ bs, 128 ≤ b.toNat) (r : List UInt8) :
    quotedBytes? quote (bs ++ r) = (quotedBytes? quote r).map (bs.length + ·) := by
  induction bs with
  | nil => simp
  | cons b bs ih =>
    obtain ⟨hb, hbs⟩ := List.forall_mem_cons.1 hbs
    have hne : b ≠ quote := by
      rintro rfl
      omega
    rw [List.cons_append, quotedBytes?_cons (isByte_of_le hb _), if_neg hne, ih hbs, Option.map_map]
    refine congrArg (fun f => Option.map f _) (funext fun n => ?_)
    rw [Function.comp_apply, List.length_cons]
    omega

theorem ne_backslash (hnil : c = '\\' → t = [] → False)
    (hcons : ∀ d u, c = '\\' → t = d :: u → False) : c ≠ '\\' := by
  intro hc
  cases t with
  | nil => exact hnil hc rfl
  | cons d u => exact hcons d u hc rfl

theorem quotedBytes?_eq {quote : Char} (hq : quote.toNat < 128) (t : Text) :
    quotedBytes? quote.toUInt8 t.bytes = (quotedSize? quote t).map fun n => byteSize (t.take n) := by
  have hq' : quote.toUInt8.toNat < 128 := (toNat_toUInt8 hq).symm ▸ hq
  fun_induction quotedSize? quote t with
  | case1 => rfl
  | case2 => rfl
  | case3 c t ih =>
    -- The backslash hides the first byte of `c` only, and the others are skipped.
    obtain ⟨b, bs, hb⟩ := List.exists_cons_of_ne_nil (String.utf8EncodeChar_ne_nil (c := c))
    have hbs : ∀ b ∈ bs, 128 ≤ b.toNat := by
      by_cases hc : c.toNat < 128
      · rw [encode_of_ascii hc] at hb
        cases hb
        exact List.forall_mem_nil _
      · exact fun a ha => le_of_mem_encode (Nat.not_lt.1 hc) a (hb ▸ List.mem_cons_of_mem _ ha)
    have hsize : c.utf8Size = bs.length + 1 := by
      rw [← String.length_utf8EncodeChar, hb, List.length_cons]
    have hstep : quotedBytes? quote.toUInt8 (bytes ('\\' :: c :: t)) =
        (quotedBytes? quote.toUInt8 (bs ++ bytes t)).map (· + 2) := by
      rw [bytes_cons, bytes_cons, hb]
      rfl
    rw [hstep, quotedBytes?_skip hq' hbs, ih, Option.map_map, Option.map_map, Option.map_map]
    refine congrArg (fun f => Option.map f _) (funext fun n => ?_)
    simp only [Function.comp_apply, List.take_succ_cons, byteSize_cons, hsize,
      show '\\'.utf8Size = 1 from rfl]
    omega
  | case4 t hnil hcons =>
    have hslash : isByte (· == '\\') quote.toUInt8 = false := by
      rw [isByte_of_ascii hq, beq_eq_false_iff_ne]
      exact ne_backslash hnil hcons
    rw [bytes_cons, encode_of_ascii hq, List.singleton_append, quotedBytes?_cons hslash, if_pos rfl]
    exact congrArg some (utf8Size_of_ascii hq).symm
  | case5 c t hnil hcons hne ih =>
    have hmap : (quotedBytes? quote.toUInt8 (bytes t)).map (c.utf8Size + ·) =
        ((quotedSize? quote t).map (· + 1)).map fun n => byteSize ((c :: t).take n) := by
      rw [ih, Option.map_map, Option.map_map]
      rfl
    rw [← hmap, bytes_cons]
    by_cases hc : c.toNat < 128
    · have hslash : isByte (· == '\\') c.toUInt8 = false := by
        rw [isByte_of_ascii hc, beq_eq_false_iff_ne]
        exact ne_backslash hnil hcons
      rw [encode_of_ascii hc, List.singleton_append, quotedBytes?_cons hslash,
        if_neg fun h => hne ((toUInt8_inj hc hq).1 h), utf8Size_of_ascii hc]
      exact congrArg (fun f => Option.map f _) (funext fun n => Nat.add_comm n 1)
    · rw [quotedBytes?_skip hq' (le_of_mem_encode (Nat.not_lt.1 hc)), String.length_utf8EncodeChar]

/-! Heredocs. -/

theorem not_mem_newline {l : Text} (h : ∀ c ∈ l, isIndent c = true ∨ isNameChar c = true) :
    '\n' ∉ l := by
  intro hn
  rcases h _ hn with h | h <;> revert h <;> decide

/-- Whether a line closes the heredoc shows on that line. -/
theorem closesHeredoc_line (hne : label ≠ []) (hname : ∀ c ∈ label, isNameChar c = true) (l : Text)
    (hr : r = [] ∨ ∃ u, r = '\n' :: u) : closesHeredoc label (l ++ r) = closesHeredoc label l := by
  have hind : ∀ t : Text, ∀ c ∈ t.takeWhile isIndent, isIndent c = true :=
    fun t c hc => List.all_eq_true.1 List.all_takeWhile c hc
  have hstop : ∀ x : Text, x.head?.any isNameChar = false → (x ++ r).head?.any isNameChar = false := by
    intro x hx
    cases x with
    | nil => rcases hr with rfl | ⟨u, rfl⟩ <;> rfl
    | cons c x => exact hx
  rw [Bool.eq_iff_iff]
  constructor
  · intro h
    obtain ⟨x, hx, hhead⟩ := closesHeredoc_split h
    generalize hi : (l ++ r).takeWhile isIndent = i at hx
    have hblank : ∀ c ∈ i, isIndent c = true := hi ▸ hind (l ++ r)
    rcases List.append_eq_append_iff.1 hx with ⟨a, ha, hra⟩ | ⟨a, rfl, rfl⟩
    · have hnone : '\n' ∉ i ++ label := not_mem_newline fun c hc =>
        (List.mem_append.1 hc).imp (hblank c) (hname c)
      obtain rfl : a = [] := by
        rcases hr with rfl | ⟨u, rfl⟩
        · exact (List.append_eq_nil_iff.1 hra.symm).1
        · cases a with
          | nil => rfl
          | cons c a =>
            obtain ⟨rfl, -⟩ := List.cons.inj hra
            exact absurd (ha ▸ List.mem_append_right l List.mem_cons_self) hnone
      rw [List.append_nil] at ha
      rw [← ha, ← List.append_nil (i ++ label)]
      exact closesHeredoc_append hblank hne hname rfl
    · refine closesHeredoc_append hblank hne hname ?_
      cases a with
      | nil => rfl
      | cons c a => exact hhead
  · intro h
    obtain ⟨x, hx, hhead⟩ := closesHeredoc_split h
    rw [hx, List.append_assoc]
    exact closesHeredoc_append (hind l) hne hname (hstop x hhead)

theorem heredocBody?_line {l : Text} (hl : '\n' ∉ l) (r : Text) :
    heredocBody? label false (l ++ r) = (heredocBody? label false r).map (l.length + ·) := by
  induction l with
  | nil => simp
  | cons c l ih =>
    have hc : c ≠ '\n' := fun h => hl (h ▸ List.mem_cons_self)
    rw [List.cons_append, heredocBody?_next hc, ih fun h => hl (List.mem_cons_of_mem c h),
      Option.map_map]
    refine congrArg (fun f => Option.map f _) (funext fun n => ?_)
    rw [Function.comp_apply, List.length_cons]
    omega

theorem heredocBody?_nil (hne : label ≠ []) (b : Bool) : heredocBody? label b [] = none := by
  cases label with
  | nil => exact absurd rfl hne
  | cons c l => cases b <;> rfl

theorem any_dropPrefix? (label l : Text) :
    (Text.dropPrefix? (l.dropWhile isIndent) label).any (!·.head?.any isNameChar) =
      closesHeredoc label l := by
  rw [closesHeredoc]
  cases Text.dropPrefix? (l.dropWhile isIndent) label <;> rfl

/-- What the lines of a heredoc come to, counted in bytes from `pos` on. -/
def heredocEnd (pos : Nat) (t : Text) : Option Nat → Except Fault Nat
  | some n => .ok (pos + byteSize (t.take n))
  | none => .error .unterminatedHeredoc

theorem heredocLines_eq (hne : label ≠ []) (hname : ∀ c ∈ label, isNameChar c = true)
    (h : s.dropBytes? pos = some t) :
    heredocLines s label pos = some (heredocEnd pos t (heredocBody? label true t)) := by
  induction hn : t.length using Nat.strongRecOn generalizing pos t with
  | _ n ih =>
  have hline : ∃ l r, t = l ++ r ∧ t.takeWhile (· != '\n') = l ∧ '\n' ∉ l ∧
      (r = [] ∨ ∃ u, r = '\n' :: u) := by
    rcases seek?_char '\n' t with ⟨l, u, rfl, hl, -⟩ | ⟨ht, -⟩
    · exact ⟨l, _, rfl, takeWhile_newline hl u, hl, .inr ⟨u, rfl⟩⟩
    · refine ⟨t, [], (List.append_nil t).symm, takeWhile_all ?_, ht, .inl rfl⟩
      exact fun c hc => bne_iff_ne.2 fun he => ht (he ▸ hc)
  obtain ⟨l, r, rfl, htake, hl, hr⟩ := hline
  rw [heredocLines, h]
  dsimp only [Option.bind_eq_bind, Option.bind_some, pure]
  rw [lineStop_eq, takeBytes?_takeWhile, htake]
  dsimp only [Option.bind_some]
  have hclose_line := closesHeredoc_line hne hname l hr
  rw [any_dropPrefix?]
  cases hclose : closesHeredoc label l with
  | true =>
    rw [hclose] at hclose_line
    obtain ⟨x, hx, -⟩ := closesHeredoc_split hclose
    have hblank : ∀ c ∈ l.takeWhile isIndent, isIndent c = true :=
      fun c hc => List.all_eq_true.1 List.all_takeWhile c hc
    generalize l.takeWhile isIndent = i at hx hblank
    subst hx
    have hall := (takeWhile_isIndent hblank hne hname (x ++ r)).1
    rw [← List.append_assoc] at hall
    have htake : (i ++ label ++ x ++ r).take (i.length + label.length) = i ++ label := by
      rw [List.append_assoc, List.take_left' List.length_append]
    have hsize : byteSize (i ++ label ++ x) - byteSize (label ++ x) = byteSize i := by
      rw [List.append_assoc, byteSize_append]
      omega
    rw [if_pos rfl, heredocBody?_of_closes hclose_line, hall, heredocEnd, htake,
      (takeWhile_isIndent hblank hne hname x).2, hsize, byteSize_append, Nat.add_assoc]
  | false =>
    rw [hclose] at hclose_line
    rw [if_neg Bool.false_ne_true, heredocBody?_of_not_closes hclose_line, heredocBody?_line hl]
    rcases hr with rfl | ⟨u, rfl⟩
    · rw [List.append_nil, if_pos rfl, heredocBody?_nil hne]
      rfl
    · have hlt : byteSize l ≠ byteSize (l ++ '\n' :: u) := by
        rw [byteSize_append, byteSize_cons, show '\n'.utf8Size = 1 from rfl]
        omega
      have hnext : s.dropBytes? (pos + (byteSize l + 1)) = some u := by
        have := dropBytes?_add (u := l ++ ['\n']) (t := u) (by simpa using h)
        rwa [byteSize_append] at this
      rw [if_neg hlt, ih u.length (by simp [← hn]; omega) hnext rfl, heredocBody?_newline]
      cases heredocBody? label true u with
      | none => rfl
      | some n =>
        dsimp only [Option.map_some, heredocEnd]
        rw [List.take_length_add_append, List.take_succ_cons, byteSize_append, byteSize_cons,
          show '\n'.utf8Size = 1 from rfl, Nat.add_assoc, Nat.add_assoc]

/-- The parts of what follows `<<<`: indentation, perhaps a quote, a label and the lines. -/
structure HeredocHead (t indent : Text) (quote : Option Char) (label rest : Text) : Prop where
  split : t = indent ++ (quote.toList ++ (label ++ rest))
  indent_eq : t.takeWhile isIndent = indent
  quote_eq : ((quote.toList ++ (label ++ rest)).head?.filter fun c => c == '\'' || c == '"') = quote
  label_eq : (label ++ rest).takeWhile isNameChar = label

theorem exists_heredocHead (t : Text) : ∃ i q l r, HeredocHead t i q l r := by
  have ht : t.takeWhile isIndent ++ t.dropWhile isIndent = t := List.takeWhile_append_dropWhile
  obtain ⟨q, y, hx, hq⟩ : ∃ q y, t.dropWhile isIndent = q.toList ++ y ∧
      ((q.toList ++ y).head?.filter fun c => c == '\'' || c == '"') = q := by
    cases t.dropWhile isIndent with
    | nil => exact ⟨none, [], rfl, rfl⟩
    | cons c x =>
      cases hc : c == '\'' || c == '"' with
      | true => exact ⟨some c, x, rfl, by simp [Option.filter, hc]⟩
      | false => exact ⟨none, c :: x, rfl, by simp [Option.filter, hc]⟩
  have hy : y.takeWhile isNameChar ++ y.dropWhile isNameChar = y := List.takeWhile_append_dropWhile
  refine ⟨_, q, y.takeWhile isNameChar, y.dropWhile isNameChar, ?_, rfl, ?_, ?_⟩
  · rw [hy, ← hx, ht]
  · rw [hy, hq]
  · rw [hy]

namespace HeredocHead

variable {i l : Text} {q : Option Char}

theorem quote_cases (h : HeredocHead t i q l r) :
    byteSize q.toList = q.toList.length ∧ '\n' ∉ q.toList := by
  have hq := h.quote_eq
  cases q with
  | none => exact ⟨rfl, List.not_mem_nil⟩
  | some c =>
    have hc : (c == '\'' || c == '"') = true := by
      simpa [Option.filter, or_iff_not_imp_left] using hq
    rcases Bool.or_eq_true_iff.1 hc with hc | hc <;> rw [beq_iff_eq.1 hc] <;> exact ⟨rfl, by decide⟩

theorem heredocSize_eq (h : HeredocHead t i q l r) : heredocSize t =
    if l.isEmpty then .error .invalidHeredocLabel
    else if q.isSome && r.head? != q then .error .unterminatedHeredocLabel
    else match heredocBody? l false r with
      | some n => .ok (i.length + q.toList.length + l.length + n)
      | none => .error .unterminatedHeredoc := by
  have hlabel : t.drop (i.length + q.toList.length) = l ++ r := by
    rw [h.split, ← List.append_assoc, List.drop_left' List.length_append]
  have hrest : t.drop (i.length + q.toList.length + l.length) = r := by
    rw [← List.drop_drop, hlabel, List.drop_left]
  have hquote : t.drop i.length = q.toList ++ (l ++ r) := by rw [h.split, List.drop_left]
  cases hbody : heredocBody? l false r <;>
    simp only [heredocSize, h.indent_eq, hquote, h.quote_eq, hlabel, h.label_eq, hrest, hbody]

end HeredocHead

theorem heredoc_eq (h : s.dropBytes? start = some ('<' :: '<' :: '<' :: t)) :
    heredoc s start = some ((heredocSize t).map fun n =>
      start + byteSize ('<' :: '<' :: '<' :: t.take n)) := by
  obtain ⟨i, q, l, r, hhead⟩ := exists_heredocHead t
  obtain ⟨hqsize, hqline⟩ := hhead.quote_cases
  have hdrop : t.dropWhile isIndent = q.toList ++ (l ++ r) := by
    have hall : t.takeWhile isIndent ++ t.dropWhile isIndent = t := List.takeWhile_append_dropWhile
    rw [hhead.indent_eq] at hall
    exact List.append_cancel_left (hall.trans hhead.split)
  have hopen : s.dropBytes? (start + 3) = some t := dropBytes?_add (u := ['<', '<', '<']) h
  have hquote : s.dropBytes? (start + 3 + byteSize i) = some (q.toList ++ (l ++ r)) :=
    dropBytes?_add (hhead.split ▸ hopen)
  have hlabel : s.dropBytes? (start + 3 + byteSize i + q.toList.length) = some (l ++ r) :=
    hqsize ▸ dropBytes?_add hquote
  have hrest := dropBytes?_add hlabel
  have hsize : byteSize t - byteSize (q.toList ++ (l ++ r)) = byteSize i := by
    rw [hhead.split, byteSize_append]
    omega
  rw [heredoc, hopen, hhead.heredocSize_eq]
  dsimp only [Option.bind_eq_bind, Option.bind_some, pure]
  rw [hdrop, hsize, hquote]
  dsimp only [Option.bind_some]
  rw [hhead.quote_eq, eatName_eq hlabel, hhead.label_eq, hlabel]
  dsimp only [Option.bind_some]
  rw [Nat.add_sub_cancel_left, takeBytes?_append, hrest]
  dsimp only [Option.bind_some]
  split
  · rfl
  rename_i hne
  split
  · rfl
  rename_i hclosed
  have hne : l ≠ [] := fun h => hne (h ▸ rfl)
  have hname : ∀ c ∈ l, isNameChar c = true := by
    intro c hc
    rw [← hhead.label_eq] at hc
    exact List.all_eq_true.1 List.all_takeWhile c hc
  obtain ⟨w, rfl⟩ : ∃ w, r = q.toList ++ w := by
    cases q with
    | none => exact ⟨r, rfl⟩
    | some c =>
      cases r with
      | nil => exact absurd rfl hclosed
      | cons d r =>
        obtain rfl : d = c := by simpa using hclosed
        exact ⟨r, rfl⟩
  have hlines := dropBytes?_add hrest
  rw [hqsize] at hlines
  rw [hlines, heredocBody?_line hqline]
  dsimp only [Option.bind_some]
  rcases seek?_char '\n' w with ⟨a, b, rfl, ha, hs⟩ | ⟨hw, hs⟩
  · have hnext := dropBytes?_add (u := a ++ ['\n']) (t := b) (by simpa using hlines)
    rw [byteSize_append, show byteSize ['\n'] = 1 from rfl] at hnext
    rw [hs, heredocBody?_line ha, heredocBody?_newline]
    dsimp only
    rw [heredocLines_eq hne hname hnext]
    cases heredocBody? l true b with
    | none => rfl
    | some m =>
      have hcount : i.length + q.toList.length + l.length + (q.toList.length + (a.length + (m + 1))) =
          i.length + (q.toList.length + (l.length + (q.toList.length + (a.length + (m + 1))))) := by
        omega
      dsimp only [Option.map_some, heredocEnd, Except.map]
      rw [hcount, hhead.split, List.take_length_add_append, List.take_length_add_append,
        List.take_length_add_append, List.take_length_add_append, List.take_length_add_append,
        List.take_succ_cons]
      simp only [byteSize_append, byteSize_cons, hqsize, show '<'.utf8Size = 1 from rfl,
        show '\n'.utf8Size = 1 from rfl]
      refine congrArg (fun n => some (Except.ok n)) ?_
      omega
  · have hnone : heredocBody? l false (w ++ []) = (heredocBody? l false []).map (w.length + ·) :=
      heredocBody?_line hw []
    rw [List.append_nil, heredocBody?_nil hne] at hnone
    rw [hs, hnone]
    rfl

/-! All rules. -/

theorem startsWith_two {a b : Char} : Text.startsWith (c :: t) [a, b] = true ↔
    c = a ∧ t.startsWith [b] = true := by
  rw [startsWith_cons_cons, Bool.and_eq_true, beq_iff_eq, eq_comm]

theorem startsWith_three {a b e : Char} : Text.startsWith (c :: t) [a, b, e] = true ↔
    c = a ∧ t.startsWith [b, e] = true := by
  rw [startsWith_cons_cons, Bool.and_eq_true, beq_iff_eq, eq_comm]

theorem startsComment : (Text.startsWith (c :: t) ['/', '/'] ||
      (c == '#' && !Text.startsWith (c :: t) ['#', '['])) = true ↔
    (c = '/' ∧ t.startsWith ['/'] = true) ∨ (c = '#' ∧ (!t.startsWith ['[']) = true) := by
  rw [Bool.or_eq_true, startsWith_two, Bool.and_eq_true, beq_iff_eq]
  refine or_congr_right (and_congr_right fun hc => ?_)
  subst hc
  rfl

theorem closeTag_eq (h : s.dropBytes? start = some ('?' :: '>' :: t)) :
    closeTag s start = some (start + byteSize ('?' :: '>' :: t.take (lineBreakSize t))) := by
  have hbreak : byteSize (t.take (lineBreakSize t)) = lineBreakSize t := by
    fun_cases lineBreakSize t <;> rfl
  rw [closeTag, show s.dropBytes? (start + 2) = some t from dropBytes?_add (u := ['?', '>']) h]
  dsimp only [Option.bind_eq_bind, Option.bind_some, pure]
  rw [byteSize_cons, byteSize_cons, hbreak, show '?'.utf8Size = 1 from rfl,
    show '>'.utf8Size = 1 from rfl]
  refine congrArg some ?_
  omega

theorem take_takeWhile (p : Char → Bool) (t : Text) :
    t.take (t.takeWhile p).length = t.takeWhile p :=
  (List.prefix_iff_eq_take.1 (List.takeWhile_prefix p)).symm

theorem exists_cons_of_startsWith {s : Text} (h : t.startsWith (d :: s) = true) :
    ∃ u : Text, t = d :: u ∧ u.startsWith s = true := by
  cases t with
  | nil => cases h
  | cons c t =>
    rw [startsWith_cons_cons, Bool.and_eq_true, beq_iff_eq] at h
    exact ⟨t, by rw [h.1], h.2⟩

theorem dropBytes?_tail (h : s.dropBytes? start = some (c :: t)) (hc : c.toNat < 128) :
    s.dropBytes? (start + 1) = some t := by
  have := dropBytes?_add (u := [c]) h
  rwa [byteSize_cons, utf8Size_of_ascii hc] at this

theorem code_eq (h : s.dropBytes? start = some (c :: t)) :
    code s start = some ((scanCode c t).map fun p => (p.1, start + byteSize (c :: t.take p.2))) := by
  rw [code, h]
  dsimp only [Option.bind_eq_bind, Option.bind_some, List.head?_cons, pure]
  rw [leadsName_cons (by decide), leadsName_cons (by decide)]
  dsimp only [Option.bind_some]
  simp only [startsWith_two, startsWith_three, startsComment]
  simp only [Bool.or_eq_true, Bool.and_eq_true, beq_iff_eq, or_assoc]
  unfold scanCode
  split
  · rename_i hc
    obtain ⟨rfl, ht⟩ := hc
    obtain ⟨u, rfl, -⟩ := exists_cons_of_startsWith ht
    rw [closeTag_eq h, List.drop_succ_cons, List.drop_zero, Nat.add_comm 1]
    rfl
  split
  · rename_i hc
    rw [spanBytes_eq, List.takeWhile_cons_of_pos hc]
    dsimp only [Except.map]
    rw [take_takeWhile]
  split
  · rename_i hc
    obtain ⟨rfl, ht⟩ := hc
    obtain ⟨u, rfl, -⟩ := exists_cons_of_startsWith ht
    rw [comment_eq h, List.drop_succ_cons, List.drop_zero]
    cases commentSize? u with
    | none => rfl
    | some n =>
      dsimp only [Option.map_some, Option.bind_some, Except.map]
      rw [Nat.add_comm 1, List.take_succ_cons]
      rfl
  split
  · rename_i hc
    have hne : c ≠ '\n' ∧ c ≠ '?' := by
      rcases hc with ⟨rfl, -⟩ | ⟨rfl, -⟩ <;> decide
    rw [lineComment_eq h hne.1 hne.2]
    rfl
  split
  · rename_i hc
    obtain ⟨rfl, -⟩ := hc
    rw [eatName_eq (dropBytes?_tail h (by decide))]
    dsimp only [Option.bind_some, Except.map]
    rw [take_takeWhile, byteSize_cons, Nat.add_assoc]
    rfl
  split
  · rename_i hc
    obtain ⟨rfl, ht⟩ := hc
    obtain ⟨u, rfl, hu⟩ := exists_cons_of_startsWith ht
    obtain ⟨v, rfl, -⟩ := exists_cons_of_startsWith hu
    rw [heredoc_eq h]
    dsimp only [Option.bind_some]
    rw [List.drop_succ_cons, List.drop_succ_cons, List.drop_zero]
    cases heredocSize v with
    | error e => rfl
    | ok n =>
      dsimp only [Except.map]
      rw [Nat.add_comm 2, List.take_succ_cons, List.take_succ_cons]
  split
  · rename_i hc
    have hascii : c.toNat < 128 := by
      rcases hc with rfl | rfl | rfl <;> decide
    rw [drop_bytes (dropBytes?_tail h hascii), quotedBytes?_eq hascii]
    cases quotedSize? c t with
    | none => rfl
    | some n =>
      dsimp only [Option.map_some, Except.map]
      rw [byteSize_cons, utf8Size_of_ascii hascii, Nat.add_comm 1]
  split
  · rename_i hc
    have hsize : numberSize (c :: t) = numberSize t + 1 := by
      rw [numberSize, if_pos]
      rw [Char.isAlphanum, hc, Bool.or_true, Bool.true_or, Bool.true_or]
    rw [drop_bytes h, numberBytes_eq, hsize, List.take_succ_cons]
    rfl
  split
  · rename_i hc
    rw [name_eq h hc]
    rfl
  · rfl

end PhpGraft.Cursor
