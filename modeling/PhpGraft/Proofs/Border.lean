import PhpGraft.Proofs.Sentence
import PhpGraft.Proofs.TagLines

/-!
The border of a documentation comment. Each line that the comment writes starts with an asterisk, and
so it does at every indentation; the lines that a text brings along behind its first are as they are.
-/
namespace PhpGraft

open Text Lexer

/-- The first line opens the comment, the last one closes it, and the others start with an asterisk. -/
def Text.Bordered (t : Text) : Prop :=
  ∃ ls, splitOn '\n' t = "/**".toList :: (ls ++ [" */".toList]) ∧ ∀ l ∈ ls, " *".toList <+: l

/-- Behind the first line, asterisks stand one to the right of the indentation. -/
def Text.Aligned (t indent : Text) : Prop := ∀ l ∈ (splitOn '\n' t).tail, indent ++ " *".toList <+: l

/-- Lines without line feeds of their own are found again, but the last one each with what the line
break has in front of its line feed. -/
theorem LineEnding.splitOn_join (e : LineEnding) {ls : List Text} {s : Text} (hls : ∀ l ∈ ls, '\n' ∉ l)
    (hs : '\n' ∉ s) : splitOn '\n' (join e.text (ls ++ [s])) = ls.map (· ++ e.text.dropLast) ++ [s] := by
  have htext : ∀ t, e.text ++ t = e.text.dropLast ++ '\n' :: t := by cases e <;> exact fun _ => rfl
  have hno : '\n' ∉ e.text.dropLast := by cases e <;> decide
  induction ls with
  | nil => exact (congrArg _ List.intercalate_singleton).trans (splitOn_of_not_mem hs)
  | cons l ls ih =>
    obtain ⟨hl, hls⟩ := List.forall_mem_cons.1 hls
    have hline : '\n' ∉ l ++ e.text.dropLast := fun h => (List.mem_append.1 h).elim hl hno
    have hjoin : join e.text (l :: (ls ++ [s])) =
        l ++ e.text.dropLast ++ '\n' :: join e.text (ls ++ [s]) := by
      rw [join_cons, flatMap_join (List.append_ne_nil_of_right_ne_nil _ (List.cons_ne_nil _ _)), htext,
        List.append_assoc]
    rw [List.cons_append, hjoin, splitOn_append_cons hline, ih hls]
    rfl

namespace DocBlock

variable {d : DocBlock} {l : Text}

/-- The texts that the comment prints, each behind an asterisk. -/
def texts (d : DocBlock) : List Text := d.outline.flatten

def Continues (d : DocBlock) (l : Text) : Prop := ∃ t ∈ d.texts, l ∈ (splitOn '\n' t).tail

def body (d : DocBlock) : List Text := (page d.outline).flatMap (splitOn '\n')

theorem mem_page {gs : List (List Text)} : l ∈ page gs ↔
    (l = " *".toList ∧ gs.length ≠ 1) ∨ ∃ t ∈ gs.flatten, " * ".toList ++ t = l := by
  cases gs with
  | nil => simp [page]
  | cons g gs =>
    rw [page_cons, List.mem_append, List.mem_map, List.mem_flatMap]
    constructor
    · rintro (⟨t, ht, rfl⟩ | ⟨g', hg', hl⟩)
      · exact .inr ⟨t, List.mem_append_left _ ht, rfl⟩
      · rcases List.mem_cons.1 hl with rfl | hl
        · exact .inl ⟨rfl, by simpa using List.ne_nil_of_mem hg'⟩
        · obtain ⟨t, ht, rfl⟩ := List.mem_map.1 hl
          exact .inr ⟨t, List.mem_append_right _ (List.mem_flatten_of_mem hg' ht), rfl⟩
    · rintro (⟨rfl, hlen⟩ | ⟨t, ht, rfl⟩)
      · obtain ⟨g', gs, rfl⟩ := List.exists_cons_of_ne_nil (l := gs) (by simpa using hlen)
        exact .inr ⟨g', List.mem_cons_self, List.mem_cons_self⟩
      · rcases List.mem_append.1 ht with ht | ht
        · exact .inl ⟨t, ht, rfl⟩
        · obtain ⟨g', hg', ht⟩ := List.mem_flatten.1 ht
          exact .inr ⟨g', hg', List.mem_cons_of_mem _ (List.mem_map_of_mem ht)⟩

theorem splitOn_render (d : DocBlock) :
    splitOn '\n' d.render = "/**".toList :: (d.body ++ [" */".toList]) := by
  rw [render_page, splitOn_join _ (List.cons_ne_nil _ _), List.flatMap_cons, List.flatMap_append]
  rfl

theorem mem_body : l ∈ d.body ↔ (l = " *".toList ∧ d.outline.length ≠ 1) ∨
    ∃ t ∈ d.texts, l ∈ (splitOn '\n' t).modifyHead (" * ".toList ++ ·) := by
  have htext : ∀ t : Text, splitOn '\n' (" * ".toList ++ t) =
      (splitOn '\n' t).modifyHead (" * ".toList ++ ·) := splitOn_append_left (by decide)
  rw [body, List.mem_flatMap]
  constructor
  · rintro ⟨p, hp, hl⟩
    rcases mem_page.1 hp with ⟨rfl, hlen⟩ | ⟨t, ht, rfl⟩
    · exact .inl ⟨List.mem_singleton.1 hl, hlen⟩
    · exact .inr ⟨t, ht, htext t ▸ hl⟩
  · rintro (⟨rfl, hlen⟩ | ⟨t, ht, hl⟩)
    · exact ⟨_, mem_page.2 (.inl ⟨rfl, hlen⟩), List.mem_singleton.2 rfl⟩
    · exact ⟨_, mem_page.2 (.inr ⟨t, ht, rfl⟩), (htext t).symm ▸ hl⟩

theorem mem_modifyHead {f : Text → Text} {ls : List Text} :
    l ∈ ls.modifyHead f ↔ (∃ w, ls.head? = some w ∧ f w = l) ∨ l ∈ ls.tail := by
  cases ls <;> simp [eq_comm]

theorem body_cases (h : l ∈ d.body) : " *".toList <+: l ∨ d.Continues l := by
  rcases mem_body.1 h with ⟨rfl, -⟩ | ⟨t, ht, hl⟩
  · exact .inl (List.prefix_refl _)
  · rcases mem_modifyHead.1 hl with ⟨w, -, rfl⟩ | hl
    · exact .inl ⟨' ' :: w, rfl⟩
    · exact .inr ⟨t, ht, hl⟩

theorem Continues.mem_body (h : d.Continues l) : l ∈ d.body :=
  have ⟨t, ht, hl⟩ := h
  DocBlock.mem_body.2 (.inr ⟨t, ht, mem_modifyHead.2 (.inr hl)⟩)

/-! At an indentation. -/

/-- A line of a comment, moved. -/
def movedLine (indent l : Text) : Text :=
  indent ++ ((if (trim l).startsWith ['*'] then [' '] else []) ++ trim l)

variable {indent : Text}

theorem solid_render (d : DocBlock) : d.render.Solid := by
  have hrender : d.render =
      '/' :: ("**".toList ++ (page d.outline).flatMap (['\n'] ++ ·) ++ "\n */".toList) := by
    rw [render_page, join_cons, List.flatMap_append, ← List.append_assoc]
    rfl
  rw [hrender]
  refine ⟨⟨_, _, rfl, by decide⟩, '/', ?_, by decide⟩
  rw [← List.cons_append, List.getLast?_append_of_ne_nil _ (by decide)]
  rfl

theorem reindentComment_render (d : DocBlock) (indent nl : Text) : reindentComment d.render indent nl =
    join nl ("/**".toList :: (d.body.map (movedLine indent) ++ [indent ++ " */".toList])) := by
  have hmoved : ∀ ls : List Text, ((ls.map trim).flatMap fun l =>
      nl ++ indent ++ (if l.startsWith ['*'] then [' '] else []) ++ l) =
      (ls.map (movedLine indent)).flatMap (nl ++ ·) := by
    intro ls
    rw [List.flatMap_map, List.flatMap_map]
    simp only [movedLine, List.append_assoc]
  have hlast : d.body.map (movedLine indent) ++ [indent ++ " */".toList] =
      (d.body ++ [" */".toList]).map (movedLine indent) := by
    rw [List.map_append]
    rfl
  rw [reindentComment, d.solid_render.trim_eq, splitOn_render, List.map_cons, join_cons, hlast, ← hmoved]
  rfl

theorem movedLine_of_not (h : ¬['*'] <+: trim l) : movedLine indent l = indent ++ trim l := by
  have hno : ¬(trim l).startsWith ['*'] = true := mt List.isPrefixOf_iff_prefix.1 h
  rw [movedLine, if_neg hno, List.nil_append]

/-- A line stands at the asterisk of the border exactly when it starts with one. -/
theorem isPrefix_movedLine (e : LineEnding) :
    indent ++ " *".toList <+: movedLine indent l ++ e.text.dropLast ↔ ['*'] <+: trim l := by
  by_cases h : ['*'] <+: trim l
  · have hstar : (trim l).startsWith ['*'] = true := List.isPrefixOf_iff_prefix.2 h
    refine iff_of_true ?_ h
    rw [movedLine, if_pos hstar, List.append_assoc, List.prefix_append_right_inj]
    exact List.cons_prefix_cons.2 ⟨rfl, h.trans (List.prefix_append _ _)⟩
  · rw [movedLine_of_not h, List.append_assoc, List.prefix_append_right_inj]
    refine iff_of_false (fun ⟨t, ht⟩ => ?_) h
    cases htrim : trim l with
    | nil =>
      rw [htrim] at ht
      cases e <;> cases ht
    | cons c s =>
      obtain ⟨rfl, -⟩ := List.cons.inj (ht.trans (congrArg (· ++ _) htrim))
      have hwhite := head_trim (t := l) (congrArg List.head? htrim)
      cases hwhite

theorem trim_border (h : " *".toList <+: l) : ['*'] <+: trim l := by
  obtain ⟨t, rfl⟩ := h
  have hstart : trimStart (" *".toList ++ t) = '*' :: t := trimStart_append_cons (s := [' ']) (by decide)
  refine ⟨trimEnd t, ?_⟩
  rw [trim, hstart]
  exact (trimEnd_append_cons (s := []) (by decide)).symm

theorem unbroken_movedLine (hi : ∀ c ∈ indent, isIndent c = true) (h : l ∈ d.body) :
    '\n' ∉ movedLine indent l := by
  obtain ⟨p, -, hl⟩ := List.mem_flatMap.1 h
  have hno := not_mem_of_mem_splitOn hl
  intro hmem
  rcases List.mem_append.1 hmem with hmem | hmem
  · cases hi _ hmem
  · rcases List.mem_append.1 hmem with hmem | hmem
    · split at hmem <;> simp at hmem
    · exact hno (mem_of_mem_trim hmem)

/-- The lines of the comment at an indentation; each but the last keeps what its line break has in front
of the line feed. -/
theorem splitOn_reindentComment (e : LineEnding) (hi : ∀ c ∈ indent, isIndent c = true) :
    splitOn '\n' (reindentComment d.render indent e.text) =
      ("/**".toList ++ e.text.dropLast) ::
        (d.body.map (movedLine indent · ++ e.text.dropLast) ++ [indent ++ " */".toList]) := by
  have hfirst : '\n' ∉ "/**".toList := by decide
  have hbody : ∀ l ∈ d.body.map (movedLine indent), '\n' ∉ l :=
    List.forall_mem_map.2 fun l => unbroken_movedLine hi
  have hlast : '\n' ∉ indent ++ " */".toList := fun h =>
    (List.mem_append.1 h).elim (fun h => absurd (hi _ h) (by decide)) (by decide)
  have hsplit := e.splitOn_join (List.forall_mem_cons.2 ⟨hfirst, hbody⟩) hlast
  rw [reindentComment_render, ← List.cons_append, hsplit, List.map_cons, List.map_map]
  rfl

/-- Comments keep their border around all but the further lines of their texts. -/
theorem bordered_render (d : DocBlock) (e : LineEnding) (hi : ∀ c ∈ indent, isIndent c = true) :
    (∃ ls, splitOn '\n' d.render = "/**".toList :: (ls ++ [" */".toList]) ∧
      ∀ l ∈ ls, " *".toList <+: l ∨ d.Continues l) ∧
    (d.render.Bordered ↔ ∀ l, d.Continues l → " *".toList <+: l) ∧
    (∀ l ∈ (splitOn '\n' (reindentComment d.render indent e.text)).tail, indent ++ " *".toList <+: l ∨
      ∃ w, d.Continues w ∧ l = indent ++ trim w ++ e.text.dropLast) ∧
    ((reindentComment d.render indent e.text).Aligned indent ↔ ∀ l, d.Continues l → ['*'] <+: trim l) := by
  refine ⟨⟨d.body, d.splitOn_render, fun l => body_cases⟩, ⟨?_, fun h => ?_⟩, fun l hl => ?_, ?_⟩
  · rintro ⟨ls, hls, hborder⟩ l hl
    rw [splitOn_render] at hls
    obtain rfl := List.append_cancel_right (List.cons.inj hls).2
    exact hborder l hl.mem_body
  · exact ⟨d.body, d.splitOn_render, fun l hl => (body_cases hl).elim id (h l)⟩
  · rw [splitOn_reindentComment e hi] at hl
    rcases List.mem_append.1 hl with hl | hl
    · obtain ⟨w, hw, rfl⟩ := List.mem_map.1 hl
      by_cases hstar : ['*'] <+: trim w
      · exact .inl ((isPrefix_movedLine e).2 hstar)
      · have hcont := (body_cases hw).resolve_left (mt trim_border hstar)
        exact .inr ⟨w, hcont, congrArg (· ++ _) (movedLine_of_not hstar)⟩
    · rw [List.mem_singleton.1 hl]
      exact .inl ((List.prefix_append_right_inj _).2 ⟨['/'], rfl⟩)
  · rw [Aligned, splitOn_reindentComment e hi, List.tail_cons, List.forall_mem_append, List.forall_mem_map]
    simp only [isPrefix_movedLine]
    refine ⟨fun h l hl => h.1 l hl.mem_body, fun h => ⟨fun l hl => ?_, ?_⟩⟩
    · exact (body_cases hl).elim trim_border (h l)
    · exact List.forall_mem_singleton.2 ((List.prefix_append_right_inj _).2 ⟨['/'], rfl⟩)

/-- Further lines of a text with and without an asterisk of their own. -/
theorem bordered_render_lines : (∀ c ∈ ['\t'], isIndent c = true) ∧
    (render { message? := some "a\n * b" }).Bordered ∧
    (reindentComment (render { message? := some "a\n * b" }) ['\t'] LineEnding.crlf.text).Aligned ['\t'] := by
  have hi : ∀ c ∈ ['\t'], isIndent c = true := List.forall_mem_singleton.2 rfl
  have hcont : ∀ l, Continues { message? := some "a\n * b" } l → l = " * b".toList := by
    rintro l ⟨t, ht, hl⟩
    obtain rfl := List.mem_singleton.1 ht
    exact List.mem_singleton.1 hl
  obtain ⟨-, hborder, -, halign⟩ := bordered_render { message? := some "a\n * b" } .crlf hi
  refine ⟨hi, hborder.2 fun l hl => ?_, halign.2 fun l hl => ?_⟩
  · rw [hcont l hl]
    decide
  · rw [hcont l hl]
    decide

/-- A line feed in a message starts a line without asterisk. -/
theorem render_breaks_border : ¬(render { message? := some "a\nb" }).Bordered ∧
    ¬(reindentComment (render { message? := some "a\nb" }) "    ".toList ['\n']).Aligned
      "    ".toList := by
  refine ⟨fun ⟨ls, hls, h⟩ => ?_, fun h => ?_⟩
  · obtain rfl : [" * a".toList, "b".toList] = ls := List.append_cancel_right (List.cons.inj hls).2
    exact absurd (h "b".toList (by decide)) (by decide)
  · exact absurd (h "    b".toList (by decide)) (by decide)

end DocBlock
end PhpGraft
