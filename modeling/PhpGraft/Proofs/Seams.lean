import PhpGraft.Proofs.Gathering

/-!
What stands between entries that are read again. It is what was printed between them, but for a carriage
return that a line comment takes; so the class stands behind the gap that was printed for it.
-/
namespace PhpGraft

theorem Node.lastStop_eq (i : Nat) (ns : List Node) :
    lastStop i ns = ((ns.map span?).getLast?.join.map Span.stop).getD i := by
  rw [List.getLast?_map, lastStop]
  cases ns.getLast? with
  | none => rfl
  | some n =>
    cases n with
    | mk id origin decl children => cases h : origin.anchor? <;> simp [span?, h]

namespace Tokens

open Lexer

variable {p : Place} {ns : List Node} {cs : List Chunk} {g : List Token} {w : Text}

/-! Positions. -/

theorem between_append_append (A X B : List Token) :
    Tokens.between (A ++ (X ++ B)).toArray A.length (A.length + X.length) = Token.spell X := by
  rw [between, extract_append]

theorem Chunk.spans_append (i : Nat) (cs ds : List Chunk) :
    Chunk.spans i (cs ++ ds) = Chunk.spans i cs ++ Chunk.spans (i + (Chunk.all cs).length) ds := by
  induction cs generalizing i with
  | nil => rfl
  | cons c cs ih =>
    rw [List.cons_append, Chunk.spans, Chunk.spans, ih, List.cons_append]
    simp only [Chunk.all, List.flatMap_cons, List.length_append, Nat.add_assoc]

theorem Chunk.length_spans (i : Nat) (cs : List Chunk) : (Chunk.spans i cs).length = cs.length := by
  induction cs generalizing i with
  | nil => rfl
  | cons c cs ih => exact congrArg Nat.succ (ih _)

/-- The white space behind the last of the entries, or `g` where there are none. -/
def Chunk.lastGap (g : List Token) (cs : List Chunk) : List Token := (cs.getLast?.map Chunk.gap).getD g

theorem between_lastStop (A R : List Token)
    (h : ns.map Node.span? = (Chunk.spans (A.length + g.length) cs).map some) :
    Tokens.between (A ++ (g ++ (Chunk.all cs ++ R))).toArray (Node.lastStop A.length ns)
      (A.length + g.length + (Chunk.all cs).length) = Token.spell (Chunk.lastGap g cs) := by
  rw [Node.lastStop_eq, h]
  rcases List.eq_nil_or_concat' cs with rfl | ⟨ds, d, rfl⟩
  · exact between_append_append A g R
  · have hall : A ++ (g ++ (Chunk.all (ds ++ [d]) ++ R)) =
        (A ++ g ++ Chunk.all ds ++ d.code ++ d.note) ++ (d.gap ++ R) := by
      simp [Chunk.all, Chunk.tokens]
    have hgap : Chunk.lastGap g (ds ++ [d]) = d.gap := by simp [Chunk.lastGap]
    rw [hall, hgap, ← between_append_append _ d.gap R]
    congr 1
    · simp only [Chunk.spans_append, Chunk.spans, List.map_append, List.map_cons, List.map_nil,
        List.getLast?_concat, Option.join_some, Option.map_some, Option.getD_some, List.length_append]
    · simp [Chunk.all, Chunk.tokens, Nat.add_assoc]

theorem Part.RereadAll.lastGap {ps : List Part} (h : RereadAll w ps cs) (hg : ps = [] → Token.spell g = w)
    (hlast : (∀ P ∈ ps.getLast?, P.note = []) ∨ w.head? ≠ some '\r') :
    Token.spell (Chunk.lastGap g cs) = w := by
  rcases List.eq_nil_or_concat' ps with rfl | ⟨qs, Q, rfl⟩
  · cases h
    exact hg rfl
  · obtain ⟨xs, c, ys, rfl, -, hc, hys, -⟩ := h.split
    cases hys
    have hgap : Chunk.lastGap g (xs ++ [c]) = c.gap := by simp [Chunk.lastGap]
    rw [hgap]
    exact hc.gap (hlast.imp_left fun hnote => hnote Q (by simp))

end Tokens

namespace Source.ClassScope

open Tokens Lexer

variable {s : Source} {sc : s.ClassScope} {p : Place} {stop i : Nat} {x : Node} {P : Part}

/-- An entry has the declaration it shows. The name of a new import is read as it is spelled. -/
theorem Shows.bare (h : sc.Shows p stop i x P)
    (hname : x.origin = .synthesized → Name.reread? x.importName = some x.importName) :
    P.node.bare = x.bare := by
  cases h with
  | read _ hx _ hq =>
    refine hq.bare.symm.trans ?_
    rcases hx with rfl | rfl
    · rfl
    · exact (Node.bare_detach _).symm
  | @new _ name _ ho hd hc =>
    have himport : x.importName = name := by
      rw [Node.importName, hd]
      rfl
    rw [himport] at hname
    have hnode : Node.ofImportOf name = ⟨0, .synthesized, .imports (.ofClass name), []⟩ := by
      rw [Node.ofImportOf, Decl.ofImportOf, hname ho]
    rw [bare_eta x, hd, hc, show (importPart name _).node = Node.ofImportOf name from rfl, hnode]
    rfl

theorem Shows.note_eq_nil (h : sc.Shows p stop i x P)
    (hx : ∀ a ∈ x.origin.anchor?, s.tokens.kind? (a.span.stop - 1) ≠ some .lineComment) : P.note = [] := by
  cases h with
  | @read m _ mid r gap _ hxm _ hq =>
    obtain ⟨a, ho, ha⟩ := hq.anchor
    have hanchor : x.origin.anchor? = some a := by
      rcases hxm with rfl | rfl
      · rw [ho]
        rfl
      · rw [Node.anchor?_detach, ho]
        rfl
    rcases EntryAt.note_cases s.tokens stop r with he | ⟨-, -, -, hline⟩
    · rw [entryPart, he]
      simp
    · refine absurd ?_ (hx a hanchor)
      rw [ha]
      exact hline
  | new => rfl

/-- What is printed up to the class is read as it is: the names of new imports are read as they are
spelled, and no line comment and no open tag takes a part of the line break in front of the class. -/
structure Steady (sc : s.ClassScope) (style : Style) (b : Nat) (is : List Node) : Prop where
  names : ∀ x ∈ is, x.origin = .synthesized → Name.reread? x.importName = some x.importName
  ended : style.lineEnding = .crlf → ∀ x ∈ (is ++ Node.others sc.before).getLast?,
    ∀ a ∈ x.origin.anchor?, s.tokens.kind? (a.span.stop - 1) ≠ some .lineComment
  tag : (s.tokens.between 0 b).getLast? ≠ some '\r'

/-- The scope with its imports gathered, read again from index `b` on: the children up to the class, the
class at `place`, those behind it and imports that were left out. Code goes on at index `j`. -/
structure Regained (sc : s.ClassScope) (style : Style) (is : List Node) (us : Tokens) (b j : Nat)
    (front : List Node) (c : Node) (place : Span) (back left : List Node) : Prop where
  ahead : front.map Node.bare = (is ++ Node.others sc.before).map Node.bare
  cls : c.bare = sc.cls.bare
  behind : back.map Node.bare = (Node.others sc.behind ++ left).map Node.bare
  dropped : ∀ n ∈ left, n ∈ sc.node.children ∧ n.isImport = true
  span : c.span? = some place
  gap : us.between (Node.lastStop b front) place.start = sc.classGap style is
  ends : Container.ofDecl sc.node.decl = .block → Node.others sc.behind = [] →
    '\n' ∈ us.between place.stop j

/-- The nodes are the scope with its imports gathered. -/
def Regains (sc : s.ClassScope) (style : Style) (is : List Node) (us : Tokens) (b j : Nat) (ns : List Node) :
    Prop :=
  ∃ front c place back left, ns = front ++ c :: back ∧
    sc.Regained style is us b j front c place back left

theorem head?_classGap (sc : s.ClassScope) (style : Style) (is : List Node) :
    (sc.classGap style is).head? = style.lineEnding.text.head? := by
  obtain ⟨k, hk⟩ := (Container.ofDecl sc.node.decl).exists_gap
    ((is ++ Node.others sc.before).getLast?.map Node.decl) sc.cls.decl
  rw [classGap, hk, Skeleton.newlines_succ, Style.newline]
  cases style.lineEnding <;> rfl

theorem note_eq_nil_of_shows {xs : List Node} {ps : List Part} (h : List.Forall₂ (sc.Shows p stop i) xs ps)
    (hxs : ∀ x ∈ xs.getLast?, ∀ a ∈ x.origin.anchor?,
      s.tokens.kind? (a.span.stop - 1) ≠ some .lineComment) : ∀ P ∈ ps.getLast?, P.note = [] := by
  induction h with
  | nil => nofun
  | @cons x P xs ps hP hrest ih =>
    cases hrest with
    | nil =>
      rintro Q ⟨⟩
      exact hP.note_eq_nil (hxs x rfl)
    | cons hQ hrest =>
      rw [List.getLast?_cons_cons] at hxs ⊢
      exact ih hxs

theorem origin_of_detach {n : Node} (h : n.detach.origin = .synthesized) : n.origin = .synthesized := by
  obtain ⟨id, origin, decl, children⟩ := n
  cases origin with
  | synthesized => rfl
  | _ => cases h

theorem bare_of_shows {xs : List Node} {ps : List Part} (h : List.Forall₂ (sc.Shows p stop i) xs ps)
    (hnames : ∀ x ∈ xs, x.origin = .synthesized → Name.reread? x.importName = some x.importName) :
    ps.map (·.node.bare) = xs.map Node.bare := by
  induction h with
  | nil => rfl
  | cons hP _ ih =>
    obtain ⟨hname, hnames⟩ := List.forall_mem_cons.1 hnames
    rw [List.map_cons, List.map_cons, ih hnames, hP.bare hname]

section

variable {style : Style} {is left ns : List Node} {t w T : Text} {front back rest : List Part}
  {cs : List Chunk}
  {A Y D g : List Token} {b e : Nat}

/-- What is read of entries that show the scope. -/
theorem Displays.regains (hd : sc.Displays style p stop i is t front P back rest left)
    (hsteady : sc.Steady style b is) (hread : ∀ x ∈ sc.node.children, x.origin ≠ .synthesized)
    (hcs : Part.RereadAll w (front ++ P :: (back ++ rest)) cs)
    (hg : front = [] → Token.spell g = P.gap)
    (hbare : ns.map Node.bare = cs.map (·.node.bare))
    (hspans : ns.map Node.span? = (Chunk.spans (A.length + g.length) cs).map some)
    (ht : Container.ofDecl sc.node.decl = .block → t ++ Token.spell D =
      rest.flatMap Part.text ++ (w ++ Token.spell (Y ++ D))) :
    sc.Regains style is (A ++ (g ++ (Chunk.all cs ++ (Y ++ D)))).toArray A.length
      (A.length + g.length + (Chunk.all cs).length + Y.length) ns := by
  obtain ⟨xs, c, ys, rfl, -, hc, hys, hxs⟩ := hcs.split
  rw [List.map_append, List.map_cons] at hbare
  obtain ⟨nf, _, rfl, hnf, hrest⟩ := List.map_eq_append_iff.1 hbare
  obtain ⟨n, nb, rfl, hn, hnb⟩ := List.map_eq_cons_iff.1 hrest
  rw [List.map_append, Chunk.spans_append, List.map_append] at hspans
  obtain ⟨hfront, hback⟩ := List.append_inj hspans (by
    rw [List.length_map, List.length_map, Chunk.length_spans, ← List.length_map (f := Node.bare), hnf,
      List.length_map])
  rw [List.map_cons, Chunk.spans, List.map_cons] at hback
  have hshown : ∀ {ps : List Part} {ds : List Chunk} {v : Text}, Part.RereadAll v ps ds →
      ds.map (·.node.bare) = ps.map (·.node.bare) := fun hds => by
    have hmap := congrArg (List.map fun q : List Token × Node => q.2.bare) hds.map
    rw [List.map_map, List.map_map] at hmap
    exact hmap
  refine ⟨nf, n, _, nb, left, rfl, ?_, ?_, ?_, hd.left, (List.cons.inj hback).1, ?_, fun hblock hnone => ?_⟩
  · rw [hnf, hshown hxs]
    refine bare_of_shows hd.front fun x hx ho => ?_
    rcases List.mem_append.1 hx with hx | hx
    · exact hsteady.names x hx ho
    · exact absurd ho (hread x (by rw [sc.split]; simp [(Node.mem_others.1 hx).1]))
  · rw [hn, hc.node, hd.cls.bare fun ho => absurd (origin_of_detach ho) (hread _ (cls_mem sc)),
      Node.bare_detach]
  · rw [hnb, hshown hys, List.map_append, List.map_append, hd.rest]
    congr 1
    refine bare_of_shows hd.back fun x hx ho => ?_
    exact absurd ho (hread x (by rw [sc.split]; simp [(Node.mem_others.1 hx).1]))
  · have hall : A ++ (g ++ (Chunk.all (xs ++ c :: ys) ++ (Y ++ D))) =
        A ++ (g ++ (Chunk.all xs ++ (Chunk.all (c :: ys) ++ (Y ++ D)))) := by
      simp [Chunk.all]
    rw [hall, between_lastStop A _ hfront, ← hd.gap]
    refine hxs.lastGap hg ?_
    rw [hd.gap, head?_classGap]
    cases hline : style.lineEnding with
    | lf => exact .inr (by decide)
    | crlf => exact .inl (note_eq_nil_of_shows hd.front (hsteady.ended hline))
  · have hnil : back = [] := by
      have hback := hd.back
      rw [hnone] at hback
      exact List.forall₂_nil_left_iff.1 hback
    subst hnil
    have hspell := hys.spell
    have htext := ht hblock
    rw [List.nil_append] at hspell hc
    rw [spell_append, ← List.append_assoc, ← List.append_assoc, ← hspell] at htext
    have hends := hd.ends hblock hnone
    rw [List.append_cancel_right htext] at hends
    have hall : A ++ (g ++ (Chunk.all (xs ++ c :: ys) ++ (Y ++ D))) =
        (A ++ g ++ Chunk.all xs ++ c.code ++ c.note) ++ ((c.gap ++ Chunk.all ys ++ Y) ++ D) := by
      simp [Chunk.all, Chunk.tokens]
    have hbetween := between_append_append (A ++ g ++ Chunk.all xs ++ c.code ++ c.note)
      (c.gap ++ Chunk.all ys ++ Y) D
    rw [← hall] at hbetween
    have hplace : '\n' ∈ Token.spell (c.gap ++ Chunk.all ys ++ Y) := by
      rw [spell_append, spell_append]
      rw [List.append_assoc, List.mem_append] at hends
      rw [List.append_assoc, List.mem_append]
      exact hends.imp_left hc.line
    rw [← hbetween] at hplace
    convert hplace using 2
    · simp only [List.length_append]
    · simp only [Chunk.all, List.flatMap_append, List.flatMap_cons, Chunk.tokens, List.length_append]
      omega

end

end Source.ClassScope

end PhpGraft
