import PhpGraft.Proofs.MethodText

/-!
The text of a class with printed methods behind its members. What stands in front of the methods is
read as before, up to the comment that it may end with.
-/
namespace PhpGraft

open Lexer

namespace Lexer

variable {L zs X : List Token} {x : Token} {c : Char} {s t w T : Text} {m : Mode}

theorem Reads.behind_punct (h : Reads m (L ++ ⟨.punct, [c]⟩ :: zs) t) :
    Reads .code zs (Token.spell zs) := by
  have hr := h.of_append
  generalize Token.spell (⟨.punct, [c]⟩ :: zs) = text at hr
  generalize hm' : m.afterAll L = m' at hr
  cases hr with
  | cons hs hr =>
    cases m' with
    | html => cases isOutside_scan hs
    | code =>
      rw [hr.spell]
      exact hr

/-- Behind a comment white space and other code may stand. -/
theorem Reads.behind_comment (h : Reads m (L ++ x :: zs) s) (hx : x.kind.isComment = true)
    (hw : ∀ c ∈ w, isSpace c = true)
    (hend : EndsLine (w ++ T) ∨ Breaks (w ++ T)) (hT : T.head?.any isSpace = false)
    (hX : Reads .code X T) :
    ∃ x' w', (x' = x ∧ w' = w ∨ x.kind = .lineComment ∧ x'.kind = .lineComment) ∧
      (∀ c ∈ w', isSpace c = true) ∧
      Reads m (L ++ x' :: (Lexer.blank w' ++ X)) (Token.spell L ++ (x.text ++ (w ++ T))) := by
  have hrest := h.of_append
  have hm : m.afterAll L = .code := by
    cases hm : m.afterAll L with
    | code => rfl
    | html =>
      rw [hm] at hrest
      have hout := isOutside_html hrest
      cases hk : x.kind <;> rw [hk] at hx hout <;> first | cases hout; done | cases hx
  rw [hm] at hrest
  generalize hz : Token.spell (x :: zs) = z at hrest
  have hnew : ∃ x' w', (x' = x ∧ w' = w ∨ x.kind = .lineComment ∧ x'.kind = .lineComment) ∧
      (∀ c ∈ w', isSpace c = true) ∧
      Reads .code (x' :: (Lexer.blank w' ++ X)) (x.text ++ (w ++ T)) := by
    by_cases hline : x.kind = .lineComment
    · obtain ⟨k, v⟩ := x
      obtain rfl : k = .lineComment := hline
      obtain ⟨v', w', hw', -, hread⟩ := hrest.line hw hT hend hX
      exact ⟨⟨.lineComment, v'⟩, w', .inr ⟨rfl, rfl⟩, hw', hread⟩
    · refine ⟨x, w, .inl ⟨rfl, rfl⟩, hw, ?_⟩
      cases hrest with
      | @cons _ c u r k _ hs hr =>
        have hkind : k = .blockComment ∨ k = .docComment := by
          cases k <;> first | exact .inl rfl | exact .inr rfl | exact absurd rfl hline | cases hx
        have hmode : Mode.after .code k = .code := by rcases hkind with rfl | rfl <;> rfl
        have hrule := (rule_of_scanCode hs).comment_append hkind (w ++ T)
        refine .cons hrule.scanCode_eq ?_
        rw [hmode]
        exact hX.blank hw hT
  obtain ⟨x', w', hk, hw', hread⟩ := hnew
  cases hrest with
  | @cons _ d u r k _ hs hr =>
    have hd := ((rule_of_scanCode hs).comment_bounds hx).1
    exact ⟨x', w', hk, hw', h.replace hd hz hread hm⟩

theorem Reads.behind_ended (h : Reads m (L ++ x :: zs) s)
    (hx : (∃ z, isBarrier z = true ∧ x = ⟨.punct, [z]⟩) ∨ x.kind.isComment = true)
    (hw : ∀ c ∈ w, isSpace c = true) (hend : EndsLine (w ++ T) ∨ Breaks (w ++ T))
    (hT : T.head?.any isSpace = false) (hX : Reads .code X T) :
    ∃ L', Reads m (L' ++ X) (Token.spell (L ++ [x]) ++ (w ++ T)) := by
  have hspell : Token.spell (L ++ [x]) = Token.spell L ++ x.text := by simp [Token.spell]
  rw [hspell, List.append_assoc]
  rcases hx with ⟨z, hz, rfl⟩ | hx
  · have hread := h.barrier hz (hX.blank hw hT)
    rw [← List.cons_append, ← List.append_assoc] at hread
    exact ⟨_, hread⟩
  · obtain ⟨x', w', -, -, hread⟩ := h.behind_comment hx hw hend hT hX
    rw [← List.cons_append, ← List.append_assoc] at hread
    exact ⟨_, hread⟩

/-- The same code and the same white space behind it, but a line comment at the end of the code may
take other characters of the white space. -/
inductive Retouched : List Token → Text → List Token → Text → Prop
  | same (L : List Token) (w : Text) : Retouched L w L w
  | line (L : List Token) (v w v' w' : Text) :
    Retouched (L ++ [⟨.lineComment, v⟩]) w (L ++ [⟨.lineComment, v'⟩]) w'

theorem Retouched.split {A C L' : List Token} {w' : Text} (h : Retouched (A ++ C) w L' w')
    (hC : C ≠ []) : ∃ C', L' = A ++ C' ∧ C'.map Token.kind = C.map Token.kind := by
  generalize hL : A ++ C = L at h
  cases h with
  | same => exact ⟨C, hL.symm, rfl⟩
  | line L v _ v' =>
    obtain ⟨C, x, rfl⟩ := (List.eq_nil_or_concat C).resolve_left hC
    rw [List.concat_eq_append, ← List.append_assoc] at hL
    obtain ⟨rfl, hx⟩ := List.append_inj' hL rfl
    cases hx
    refine ⟨C ++ [⟨.lineComment, v'⟩], List.append_assoc .., ?_⟩
    rw [List.concat_eq_append, List.map_append, List.map_append]
    rfl

/-- Behind a brace and code that ends, white space and other code may stand. -/
theorem Reads.behind {A : List Token} (h : Reads m (A ++ ⟨.punct, [c]⟩ :: (L ++ zs)) s)
    (hc : isBarrier c = true)
    (hlast : ∀ y, L.getLast? = some y →
      (∃ z, isBarrier z = true ∧ y = ⟨.punct, [z]⟩) ∨ y.kind.isComment = true)
    (hw : ∀ c ∈ w, isSpace c = true) (hend : EndsLine (w ++ T) ∨ Breaks (w ++ T))
    (hT : T.head?.any isSpace = false) (hX : Reads .code X T) :
    ∃ L' w', Retouched L w L' w' ∧ (∀ c ∈ w', isSpace c = true) ∧
      Reads m (A ++ ⟨.punct, [c]⟩ :: (L' ++ (Lexer.blank w' ++ X)))
        (Token.spell A ++ c :: (Token.spell L ++ (w ++ T))) := by
  have hblank := hX.blank hw hT
  rcases List.eq_nil_or_concat L with rfl | ⟨L, y, rfl⟩
  · exact ⟨[], w, .same _ _, hw, h.barrier hc hblank⟩
  rw [List.concat_eq_append] at h hlast ⊢
  have hspell : Token.spell (L ++ [y]) = Token.spell L ++ y.text := by simp [Token.spell]
  rw [List.append_assoc, List.singleton_append] at h
  rcases hlast y List.getLast?_concat with ⟨z, hz, rfl⟩ | hy
  · refine ⟨_, w, .same _ _, hw, ?_⟩
    have hcons : A ++ ⟨.punct, [c]⟩ :: (L ++ ⟨.punct, [z]⟩ :: zs) =
        (A ++ ⟨.punct, [c]⟩ :: L) ++ ⟨.punct, [z]⟩ :: zs := by simp
    rw [hcons] at h
    have hread := h.barrier hz hblank
    simpa [Token.spell] using hread
  · have hbehind : Reads .code (L ++ y :: zs) (Token.spell (L ++ y :: zs)) := h.behind_punct
    obtain ⟨y', w', hy', hw', hread⟩ := hbehind.behind_comment hy hw hend hT hX
    have hread' := h.barrier hc hread
    rw [hspell, List.append_assoc]
    rcases hy' with ⟨rfl, rfl⟩ | ⟨hk, hk'⟩
    · refine ⟨L ++ [y'], w', .same _ _, hw', ?_⟩
      rwa [List.append_assoc, List.singleton_append]
    · obtain ⟨k, v⟩ := y
      obtain ⟨k', v'⟩ := y'
      obtain rfl : k = .lineComment := hk
      obtain rfl : k' = .lineComment := hk'
      refine ⟨L ++ [⟨.lineComment, v'⟩], w', .line L v w v' w', hw', ?_⟩
      rwa [List.append_assoc, List.singleton_append]

end Lexer

namespace Tokens

/-- A method that is added, and the tokens it is printed as. -/
structure Rendering (style : Style) (level : Nat) where
  method : NewMethod
  decl : Method
  gap : Text
  moved : List Text
  tokens : List Token
  rendered : Rendered style level method decl gap moved tokens

variable {style : Style} {level : Nat} {r : Rendering style level} {rs : List (Rendering style level)}
  {white tail : Text} {D : List Token}

theorem exists_renderings {ms : List NewMethod} {ds : List Method}
    (h : List.Forall₂ (fun m d => m.method? = .ok d) ms ds)
    (hm : ∀ m ∈ ms, m.Movable ∧ Name.isIdentifier m.name = true)
    (hi : ∀ c ∈ style.indent, isIndent c = true) (level : Nat) :
    ∃ rs : List (Rendering style level), rs.map (·.decl) = ds := by
  induction h with
  | nil => exact ⟨[], rfl⟩
  | @cons m d _ _ hd _ ih =>
    obtain ⟨hm, hms⟩ := List.forall_mem_cons.1 hm
    obtain ⟨gap, moved, xs, hr⟩ := exists_rendered hm.1 hm.2 hd hi level
    obtain ⟨rs, rfl⟩ := ih hms
    exact ⟨⟨m, d, gap, moved, xs, hr⟩ :: rs, rfl⟩

namespace Rendering

def part (r : Rendering style level) (white : Text) : Part :=
  methodPart style level r.method r.gap r.moved white r.tokens

theorem note_part (r : Rendering style level) : (r.part white).note = [] := rfl

theorem decl_part (r : Rendering style level) (white : Text) :
    (r.part white).node.decl = .method (r.decl.placed style level) :=
  congrArg Decl.method r.rendered.placed

theorem text_part (r : Rendering style level) :
    (r.part white).text = white ++ r.decl.print style level := by
  have hprint : Token.spell (r.part white).code = r.decl.print style level := r.rendered.reads.spell
  rw [Part.text, hprint, note_part, Token.spell, List.flatMap_nil, List.append_nil]
  rfl

theorem sound_part (r : Rendering style level) (hwhite : ∀ c ∈ white, isSpace c = true) :
    (r.part white).Sound .members := by
  obtain ⟨F, i, text, hmoves⟩ := r.rendered.moves
  exact sound_method hwhite r.rendered.reads hmoves

/-- What stands in front of a method that is not the first one. -/
def gapBetween (style : Style) (level : Nat) : Text := style.newlines 2 ++ style.indentation level

theorem isSpace_gap (hi : ∀ c ∈ style.indent, isIndent c = true) (n : Nat) :
    ∀ c ∈ style.newlines n ++ style.indentation level, isSpace c = true := by
  intro c hc
  rcases List.mem_append.1 hc with hc | hc
  · exact Skeleton.isSpace_newlines n c hc
  · exact isSpace_of_isLayout (isLayout_of_isIndent (NewMethod.isIndent_indentation hi level c hc))

theorem breaks_gap (style : Style) (level : Nat) {n : Nat} (hn : 0 < n) :
    Breaks (style.newlines n ++ style.indentation level) := by
  obtain ⟨k, rfl⟩ := Nat.exists_eq_succ_of_ne_zero (Nat.ne_of_gt hn)
  rw [Skeleton.newlines_succ, List.append_assoc]
  exact Line.breaks_text style.lineEnding _

theorem appendix_eq (rs : List (Rendering style level)) : Method.appendix style level false
    (rs.map (·.decl)) = (rs.map (·.part (gapBetween style level))).flatMap Part.text := by
  induction rs with
  | nil => rfl
  | cons r rs ih =>
    rw [List.map_cons, List.map_cons, List.flatMap_cons, text_part, Method.appendix, ih]
    simp only [gapBetween, Bool.false_eq_true, if_false, List.append_assoc]

theorem mem_gapBetween : '\n' ∈ gapBetween style level :=
  List.mem_append_left _ (List.mem_append_left _
    (List.contains_iff_mem.1 (Skeleton.contains_newline style)))

theorem clear_brace (w : Text) (D : List Token) : Clear (blank w ++ brace :: D) := by
  rintro n hn ⟨t, ht⟩
  cases w <;> cases hn <;> cases ht

/-- Methods follow one another, and the closing brace follows the last of them. -/
theorem linked_parts (w T : Text) (D : List Token) (r : Rendering style level)
    (rs : List (Rendering style level)) : Part.Linked w (brace :: D) T
      (r.part white :: rs.map (·.part (gapBetween style level))) := by
  induction rs generalizing r white with
  | nil =>
    change Part.Meets _ _ _ _
    rw [Part.Meets, if_pos r.note_part]
    exact fun _ => clear_brace w D
  | cons q rs ih =>
    refine ⟨?_, ih q⟩
    rw [Part.Links, if_pos r.note_part]
    exact fun _ => .inl mem_gapBetween

end Rendering

open Rendering

/-- The closing brace of a class and what stands behind it. -/
theorem follows_brace (h : Reads .code (brace :: D) (Token.spell (brace :: D))) :
    Follows .members (brace :: D) [] (Token.spell (brace :: D)) where
  solid := rfl
  reads := h
  fit := trivial
  calm := calm_brace D
  inside := fun _ ht => absurd ht List.not_mem_nil

/-- Methods one behind the other, in front of the closing brace. -/
theorem follows_methods (hi : ∀ c ∈ style.indent, isIndent c = true) (r : Rendering style level)
    (rs : List (Rendering style level)) (htail : ∀ c ∈ tail, isSpace c = true)
    (h : Reads .code (brace :: D) (Token.spell (brace :: D))) :
    ∃ cs, Follows .members (brace :: D) cs (r.decl.print style level ++
        (Method.appendix style level false (rs.map (·.decl)) ++ (tail ++ Token.spell (brace :: D)))) ∧
      cs.map (fun c => (c.code, c.node)) = (r.part [] ::
        rs.map (·.part (gapBetween style level))).map (fun P => (P.code, P.node)) := by
  have hsound : ∀ P ∈ r.part [] :: rs.map (·.part (gapBetween style level)), P.Sound .members := by
    refine List.forall_mem_cons.2 ⟨r.sound_part nofun, fun P hP => ?_⟩
    obtain ⟨q, -, rfl⟩ := List.mem_map.1 hP
    exact q.sound_part (isSpace_gap hi 2)
  obtain ⟨cs, w', T, hcs, hall, -, htext, hhead⟩ := follows_of_parts hsound (follows_brace h) htail
    (linked_parts tail _ D r rs)
  obtain ⟨rfl, -⟩ := hhead _ rfl
  rw [List.flatMap_cons, text_part, ← appendix_eq, List.append_assoc] at htext
  obtain rfl : T = _ := htext
  exact ⟨cs, hcs, hall.map⟩

/-- Entries whose brackets are closed in them, one behind the other. -/
theorem balanced_chunks {cs : List Chunk} {rest : List Token} (hfit : Chunk.Fit .members rest cs)
    (hcs : ∀ c ∈ cs, ∀ A B : List Token, Balanced (A ++ (c.code ++ B)).toArray A.length
      (A.length + c.code.length)) (A B : List Token) :
    Balanced (A ++ (Chunk.all cs ++ B)).toArray A.length (A.length + (Chunk.all cs).length) := by
  induction cs generalizing A with
  | nil => exact .refl _ _
  | cons c cs ih =>
    obtain ⟨hc, hcs⟩ := List.forall_mem_cons.1 hcs
    have hplain : Plain (A ++ c.code ++ (c.note ++ c.gap) ++ (Chunk.all cs ++ B)).toArray
        (A ++ c.code).length ((A ++ c.code).length + (c.note ++ c.gap).length) :=
      plain_between hfit.1.isCode_note
    have hcode := hc A (c.note ++ c.gap ++ (Chunk.all cs ++ B))
    have hrest := ih hfit.2 hcs (A ++ c.code ++ (c.note ++ c.gap))
    have hlist : A ++ (Chunk.all (c :: cs) ++ B) =
        A ++ c.code ++ (c.note ++ c.gap) ++ (Chunk.all cs ++ B) := by
      simp only [Chunk.all, List.flatMap_cons, Chunk.tokens, List.append_assoc]
    have hlist' : A ++ (c.code ++ (c.note ++ c.gap ++ (Chunk.all cs ++ B))) =
        A ++ c.code ++ (c.note ++ c.gap) ++ (Chunk.all cs ++ B) := by
      simp only [List.append_assoc]
    have hlen : A.length + (Chunk.all (c :: cs)).length =
        (A ++ c.code ++ (c.note ++ c.gap)).length + (Chunk.all cs).length := by
      simp only [Chunk.all, List.flatMap_cons, Chunk.tokens, List.length_append]
      omega
    rw [hlist'] at hcode
    rw [hlist, hlen]
    rw [List.length_append] at hplain
    have hmid := balanced_of_plain (Nat.le_add_right _ _) hplain
    rw [← List.length_append, ← List.length_append] at hmid
    exact (hcode.trans (List.length_append ▸ hmid) (by simp only [List.length_append]; omega)).trans
      hrest (by simp only [List.length_append]; omega)

end Tokens
end PhpGraft
