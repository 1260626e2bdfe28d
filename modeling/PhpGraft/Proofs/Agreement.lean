import PhpGraft.Proofs.Progress
import PhpGraft.Proofs.Skeleton
import PhpGraft.Proofs.Steps

/-!
Generated files under the two printers. In a generated file everything that stands between nodes is
what generated code has there, so printing with the source and printing without it come to the same.
-/
namespace PhpGraft

namespace Source

variable {s : Source} {style : Style} {c : Container} {level parent start : Nat} {cur : Cursor}
  {ns : List Node} {n : Node}

/-- How far the tokens are dealt with behind some children. -/
def passed (index : Nat) : List Node → Nat
  | [] => index
  | n :: ns => passed ((n.origin.anchor?.map fun a => max index a.span.stop).getD index) ns

/-- A child that may keep its place was read as the first one, behind the gap that generated code has
there. -/
def Fits (s : Source) (style : Style) (c : Container) (level parent start : Nat) (n : Node) : Prop :=
  ∀ a, n.origin = .anchored a → s.predecessor? parent n.id = some none ∧
    s.tokens.between start a.span.start =
      style.newlines (c.gap none n.decl) ++ style.indentation (c.childLevel level)

theorem gap_of_fits (hn : s.Fits style c level parent start n)
    (hcur : cur.prev? = none → cur.index = start) :
    s.gap style c (c.childLevel level) (s.keeps parent cur n) cur n =
      style.newlines (c.gap (cur.prev?.map Node.decl) n.decl) ++
        style.indentation (c.childLevel level) := by
  cases hkeeps : s.keeps parent cur n with
  | false => rfl
  | true =>
    unfold keeps at hkeeps
    cases ho : n.origin with
    | synthesized =>
      rw [ho] at hkeeps
      cases hkeeps
    | detached a =>
      rw [ho] at hkeeps
      cases hkeeps
    | anchored a =>
      rw [ho] at hkeeps
      obtain ⟨hfirst, hgap⟩ := hn a ho
      have hprev := beq_iff_eq.1 (Bool.and_eq_true_iff.1 hkeeps).2
      have hnone : cur.prev? = none := by
        rw [hfirst] at hprev
        exact Option.map_eq_none_iff.1 (Option.some.inj hprev).symm
      have ha : n.origin.anchor? = some a := congrArg Origin.anchor? ho
      have hkept : s.gap style c (c.childLevel level) true cur n =
          s.tokens.between cur.index a.span.start := by
        unfold gap
        rw [ha]
      rw [hkept, hcur hnone, hnone]
      exact hgap

/-- Children that print alike under both printers, in gaps that are alike. -/
theorem printList_fits (stop : Nat)
    (hprint : ∀ n ∈ ns, s.print style (c.childLevel level) n = n.print style (c.childLevel level))
    (hfits : ∀ n ∈ ns, s.Fits style c level parent start n)
    (hcur : cur.prev? = none → cur.index = start) :
    ∃ last, s.printList style c level parent stop cur ns =
        Node.printList style c (c.childLevel level) (cur.prev?.map Node.decl) ns ++
          s.tail style c level last stop ∧ last.index = passed cur.index ns := by
  induction ns generalizing cur with
  | nil => exact ⟨cur, rfl, rfl⟩
  | cons n ns ih =>
    obtain ⟨hn, hns⟩ := List.forall_mem_cons.1 hfits
    obtain ⟨hp, hps⟩ := List.forall_mem_cons.1 hprint
    have hpassed : (cur.pass (s.keeps parent cur n) n).prev? = none →
        (cur.pass (s.keeps parent cur n) n).index = start := nofun
    obtain ⟨last, hlast, hindex⟩ := ih hps hns hpassed
    refine ⟨last, ?_, ?_⟩
    · rw [printList, gap_of_fits hn hcur, hp, hlast, Node.printList_cons]
      simp only [List.append_assoc]
      rfl
    · rw [hindex, passed, Cursor.pass]
      cases n.origin.anchor? <;> rfl

/-- A node whose children print alike, in gaps that are alike. -/
theorem print_fits {span body : Span} (hn : n.origin.anchor? = some ⟨span, some body⟩)
    (hprint : ∀ m ∈ n.children, s.print style ((Container.ofDecl n.decl).childLevel level) m =
      m.print style ((Container.ofDecl n.decl).childLevel level))
    (hfits : ∀ m ∈ n.children, s.Fits style (.ofDecl n.decl) level n.id body.start m) :
    ∃ last, s.print style level n = s.tokens.between span.start body.start ++
        (Node.printList style (.ofDecl n.decl) ((Container.ofDecl n.decl).childLevel level) none
          n.children ++ s.tail style (.ofDecl n.decl) level last body.stop) ++
            s.tokens.between body.stop span.stop ∧
      last.index = passed body.start n.children := by
  have hstart : (Cursor.mk body.start none true).prev? = none → body.start = body.start := fun _ => rfl
  obtain ⟨last, hlast, hindex⟩ := printList_fits body.stop hprint hfits hstart
  refine ⟨last, ?_, hindex⟩
  obtain ⟨id, origin, decl, children⟩ := n
  have ha : origin.anchor? = some ⟨span, some body⟩ := hn
  rw [print, ha]
  exact congrArg (_ ++ · ++ _) hlast

theorem passed_of_synthesized (hns : ∀ n ∈ ns, n.origin = .synthesized) (index : Nat) :
    passed index ns = index := by
  induction ns with
  | nil => rfl
  | cons n ns ih =>
    obtain ⟨hn, hns⟩ := List.forall_mem_cons.1 hns
    rw [passed, hn]
    exact ih hns

theorem passed_append (index : Nat) (ms ns : List Node) :
    passed index (ms ++ ns) = passed (passed index ms) ns := by
  induction ms generalizing index with
  | nil => rfl
  | cons m ms ih => exact ih _

theorem print_synthesized (h : n.origin = .synthesized) :
    s.print style level n = n.print style level := by
  obtain ⟨id, origin, decl, children⟩ := n
  obtain rfl : origin = .synthesized := h
  rw [print]
  rfl

theorem fits_of_synthesized (h : n.origin = .synthesized) : s.Fits style c level parent start n := by
  intro a ha
  rw [h] at ha
  cases ha

end Source

theorem Tokens.between_of_get {ts : Tokens} {us : List Token} {a b : Nat}
    (h : ∀ i, i < us.length → ts[a + i]? = us[i]?) (hb : b = a + us.length) :
    ts.between a b = Token.spell us := by
  have htake : (ts.toList.drop a).take us.length = us := by
    refine List.ext_getElem? fun i => ?_
    by_cases hi : i < us.length
    · rw [List.getElem?_take_of_lt hi, List.getElem?_drop, ← h i hi, Array.getElem?_toList]
    · rw [List.getElem?_eq_none (by rw [List.length_take]; omega), List.getElem?_eq_none (by omega)]
  rw [between_eq, hb, Nat.add_sub_cancel_left, htake]

namespace Skeleton

variable {k : Skeleton} {style : Style} {s : Source} {n : Node} {a : Nat}

/-- The class, with methods behind its opening brace. -/
structure Grown (k : Skeleton) (a : Nat) (n : Node) : Prop where
  anchor : n.origin.anchor? = some ⟨⟨a, a + 7⟩, some ⟨a + 5, a + 6⟩⟩
  decl : n.decl = .classLike (.ofName k.name)
  children : ∀ m ∈ n.children, m.origin = .synthesized

theorem Holds.between_opening (h : k.Holds style s.tokens a) :
    s.tokens.between a (a + 5) = Token.spell (k.classOpening style) :=
  Tokens.between_of_get (fun i hi => (h.cls i (Nat.lt_of_lt_of_le hi (show 5 ≤ 7 by decide))).trans
    (List.getElem?_append_left hi)) rfl

theorem Holds.between_body (h : k.Holds style s.tokens a) :
    s.tokens.between (a + 5) (a + 6) = style.newline := by
  rw [Tokens.between_succ (h.cls 5 (by decide))]

theorem Holds.between_closing (h : k.Holds style s.tokens a) :
    s.tokens.between (a + 6) (a + 7) = "\x7d" := by
  rw [Tokens.between_succ (h.cls 6 (by decide))]

/-- The class prints alike. -/
theorem Holds.print_class (h : k.Holds style s.tokens a) (hn : k.Grown a n) :
    s.print style 0 n = n.print style 0 := by
  obtain ⟨last, hprint, hindex⟩ := Source.print_fits hn.anchor
    (fun m hm => Source.print_synthesized (hn.children m hm))
    (fun m hm => Source.fits_of_synthesized (hn.children m hm))
  have htail : s.tail style .block 0 last (a + 6) = style.newline := by
    have hstart : last.index = a + 5 := hindex.trans (Source.passed_of_synthesized hn.children _)
    rw [Source.tail, hstart, h.between_body]
    simp only [contains_newline, Bool.not_true, Bool.and_false, if_neg Bool.false_ne_true]
  rw [hprint, Node.print_eq, hn.decl, frame_class]
  change s.tokens.between a (a + 5) ++ (_ ++ s.tail style .block 0 last (a + 6)) ++
    s.tokens.between (a + 6) (a + 7) = _
  rw [htail, h.between_opening, h.between_closing]
  simp only [List.append_assoc]

/-- Children of the scope of the class: none but the class and new declarations. -/
structure Surrounded (k : Skeleton) (s : Source) (style : Style) (c : Container) (parent start : Nat)
    (ns : List Node) : Prop where
  members : ∀ m ∈ ns, s.Fits style c 0 parent start m ∧
    (m.origin = .synthesized ∨ k.Grown k.classAt m)
  passed : Source.passed start ns = k.classAt + 7

theorem Holds.print_member (h : k.Holds style s.tokens k.classAt)
    (hn : n.origin = .synthesized ∨ k.Grown k.classAt n) : s.print style 0 n = n.print style 0 :=
  hn.elim Source.print_synthesized h.print_class

theorem tail_of_ne {c : Container} (hc : c ≠ .block) (level : Nat) (cur : Source.Cursor) (stop : Nat) :
    s.tail style c level cur stop = s.tokens.between cur.index stop := by
  rw [Source.tail, decide_eq_false hc, Bool.and_false, Bool.false_and, if_neg Bool.false_ne_true]

/-- The namespace prints alike. -/
theorem Holds.print_scope (h : k.Holds style s.tokens 7) (hk : k.classAt = 7)
    (hscope : ∀ i, i < 5 →
      s.tokens[2 + i]? = (k.scopeOpening ++ [⟨.whitespace, style.newlines 2⟩])[i]?)
    (hanchor : n.origin.anchor? = some ⟨⟨2, 14⟩, some ⟨6, 14⟩⟩)
    (hdecl : n.decl = .scope (some k.scope) false)
    (hn : k.Surrounded s style .scope n.id 6 n.children) : s.print style 0 n = n.print style 0 := by
  have hopening : s.tokens.between 2 6 = Token.spell k.scopeOpening :=
    Tokens.between_of_get (fun i hi => (hscope i (Nat.lt_of_lt_of_le hi (show 4 ≤ 5 by decide))).trans
      (List.getElem?_append_left hi)) rfl
  obtain ⟨id, origin, decl, children⟩ := n
  obtain rfl : decl = .scope (some k.scope) false := hdecl
  rw [← hk] at h
  obtain ⟨last, hprint, hindex⟩ := Source.print_fits hanchor
    (fun m hm => h.print_member (hn.members m hm).2) (fun m hm => (hn.members m hm).1)
  have htail : s.tail style .scope 0 last 14 = [] := by
    rw [tail_of_ne Container.noConfusion, hindex, hn.passed, hk, Tokens.between_self]
  rw [hprint, Node.print_eq, frame_scope]
  change s.tokens.between 2 6 ++ (_ ++ s.tail style .scope 0 last 14) ++ s.tokens.between 14 14 = _
  rw [htail, hopening, Tokens.between_self, List.append_nil, List.append_nil]

/-- The file prints alike. -/
theorem Holds.print_file (h : k.Holds style s.tokens a)
    (hopening : s.tokens.between 0 1 = "<?php" ++ style.newline)
    (hanchor : n.origin.anchor? = some ⟨⟨0, s.tokens.size⟩, some ⟨1, s.tokens.size⟩⟩)
    (hdecl : n.decl = .file)
    (hmembers : ∀ m ∈ n.children, s.Fits style .file 0 n.id 1 m ∧ s.print style 0 m = m.print style 0)
    (hpassed : Source.passed 1 n.children = a + 7) : s.print style 0 n = n.print style 0 := by
  have hlast : s.tokens.between (a + 7) s.tokens.size = lastText style := by
    rw [Tokens.between_of_get (fun i hi => ?_) h.size, Lexer.spell_blank]
    have hone : (Lexer.blank (lastText style)).length ≤ 1 := by
      rcases last_cases style with hl | hl <;> rw [hl]
      · exact Nat.zero_le 1
      · exact Nat.le_refl 1
    obtain rfl : i = 0 := by omega
    exact h.last
  obtain ⟨id, origin, decl, children⟩ := n
  obtain rfl : decl = .file := hdecl
  obtain ⟨last, hprint, hindex⟩ := Source.print_fits hanchor
    (fun m hm => (hmembers m hm).2) (fun m hm => (hmembers m hm).1)
  have htail : s.tail style .file 0 last s.tokens.size = lastText style := by
    rw [tail_of_ne Container.noConfusion, hindex, hpassed, hlast]
  rw [hprint, Node.print_eq, frame_file]
  change s.tokens.between 0 1 ++ (_ ++ s.tail style .file 0 last s.tokens.size) ++
    s.tokens.between s.tokens.size s.tokens.size = _
  rw [htail, hopening, Tokens.between_self, List.append_nil]

end Skeleton

/-- Where no imports were read, all are new. -/
theorem Source.ClassScope.synthesized_foldl {s : Source} (sc : s.ClassScope)
    (h : ∀ n ∈ sc.importsAfter {}, n.origin = .synthesized) (ops : List Operation) :
    ∀ n ∈ (ops.foldl sc.after {}).imports?.getD [], n.origin = .synthesized :=
  imports_foldl (fun _ => rfl) h ops

namespace Skeleton

variable {k : Skeleton} {style : Style} {s : Source} {sc : s.ClassScope} {p : Progress}
  {c : Container} {parent start : Nat}

/-- After a run there are new declarations around the class, and new methods in it. -/
theorem surrounded_childrenAfter (hcls : sc.cls = k.classNode k.classAt) (hbefore : sc.before = [])
    (hbehind : sc.behind = []) (himports : ∀ n ∈ p.imports?.getD [], n.origin = .synthesized)
    (hfirst : s.predecessor? parent 0 = some none) (hstart : start ≤ k.classAt)
    (hgap : s.tokens.between start k.classAt =
      style.newlines (c.gap none (.classLike (.ofName k.name))) ++ style.indentation (c.childLevel 0)) :
    k.Surrounded s style c parent start (sc.childrenAfter p) := by
  have hfront : ∀ n ∈ sc.front p, n.origin = .synthesized := by
    unfold Source.ClassScope.front
    rw [hbefore]
    cases hp : p.imports? with
    | none => exact nofun
    | some is =>
      rw [hp] at himports
      intro n hn
      exact himports n (by simpa [Node.others] using hn)
  have hback : sc.back p = [] := by
    unfold Source.ClassScope.back
    rw [hbehind]
    cases p.imports? <;> rfl
  have hgrown : k.Grown k.classAt (sc.middle p) := by
    have hextended : k.Grown k.classAt (sc.extended p) := by
      unfold Source.ClassScope.extended
      rw [hcls]
      refine ⟨rfl, rfl, fun m hm => ?_⟩
      obtain ⟨d, -, rfl⟩ := List.mem_map.1 hm
      rfl
    unfold Source.ClassScope.middle
    split
    · exact hextended
    · exact ⟨(Node.anchor?_detach _).trans hextended.anchor, hextended.decl, hextended.children⟩
  have hfits : s.Fits style c 0 parent start (sc.middle p) := by
    intro a ha
    have hid : (sc.middle p).id = 0 := by
      unfold Source.ClassScope.middle Source.ClassScope.extended
      rw [hcls]
      split <;> rfl
    have hanchor := hgrown.anchor
    rw [ha] at hanchor
    cases hanchor
    rw [hid, hgrown.decl]
    exact ⟨hfirst, hgap⟩
  refine ⟨fun m hm => ?_, ?_⟩
  · rcases List.mem_append.1 hm with hm | hm
    · exact ⟨Source.fits_of_synthesized (hfront m hm), .inl (hfront m hm)⟩
    · rw [hback, List.mem_singleton] at hm
      rw [hm]
      exact ⟨hfits, .inr hgrown⟩
  · rw [Source.ClassScope.childrenAfter, hback, Source.passed_append,
      Source.passed_of_synthesized hfront, Source.passed, hgrown.anchor]
    exact Nat.max_eq_right (Nat.le_trans hstart (Nat.le_add_right _ 7))

theorem between_tag (k : Skeleton) (style : Style) :
    (k.source style).tokens.between 0 1 = "<?php" ++ style.newline := by
  have hget : (k.source style).tokens[0]? = some ⟨.openTag, "<?php" ++ style.newline⟩ := rfl
  rw [Tokens.between_succ hget]

theorem between_gap (k : Skeleton) (style : Style) :
    (k.source style).tokens.between 1 2 = style.newlines 1 ++ style.indentation 0 := by
  have hget : (k.source style).tokens[1]? = some ⟨.whitespace, style.newline⟩ := rfl
  rw [Tokens.between_succ hget, newlines_one]
  exact (List.append_nil _).symm

/-- The file as a node. -/
def fileNode (k : Skeleton) (style : Style) (id : Nat) (children : List Node) : Node :=
  let size := (k.source style).tokens.size
  ⟨id, .anchored ⟨⟨0, size⟩, some ⟨1, size⟩⟩, .file, children⟩

def scopeNode (k : Skeleton) (children : List Node) : Node :=
  ⟨1, .anchored ⟨⟨2, 14⟩, some ⟨6, 14⟩⟩, .scope (some k.scope) false, children⟩

theorem root_plain (h : k.scope.isEmpty = true) (style : Style) :
    (k.source style).tree.root = k.fileNode style 1 [k.classNode 2] := by
  rw [source, topNode, if_pos h]
  rfl

theorem root_scoped (h : k.scope.isEmpty = false) (style : Style) :
    (k.source style).tree.root = k.fileNode style 2 [k.scopeNode [k.classNode 7]] := by
  rw [source, topNode, if_neg (Bool.eq_false_iff.1 h)]
  rfl

/-- The scope of a class outside of namespaces. -/
def plainScope (h : k.scope.isEmpty = true) (style : Style) : (k.source style).ClassScope where
  path := []
  node := k.fileNode style 1 [k.classNode 2]
  before := []
  cls := k.classNode 2
  behind := []
  edited := by
    rw [root_plain h]
    rfl
  reached := congrArg some (root_plain h style)
  split := rfl
  isClass := rfl
  last := nofun

/-- The scope of a class in a namespace. -/
def scopedScope (h : k.scope.isEmpty = false) (style : Style) : (k.source style).ClassScope where
  path := [0]
  node := k.scopeNode [k.classNode 7]
  before := []
  cls := k.classNode 7
  behind := []
  edited := by
    rw [root_scoped h]
    rfl
  reached := by
    rw [root_scoped h]
    rfl
  split := rfl
  isClass := rfl
  last := nofun

theorem rootAfter_plain (h : k.scope.isEmpty = true) (p : Progress) :
    (plainScope h style).rootAfter p = k.fileNode style 1 ((plainScope h style).childrenAfter p) := by
  rw [Source.ClassScope.rootAfter, root_plain h]
  rfl

theorem rootAfter_scoped (h : k.scope.isEmpty = false) (p : Progress) :
    (scopedScope h style).rootAfter p =
      k.fileNode style 2 [k.scopeNode ((scopedScope h style).childrenAfter p)] := by
  rw [Source.ClassScope.rootAfter, root_scoped h]
  rfl

theorem print_plain (h : k.scope.isEmpty = true)
    (himports : ∀ n ∈ p.imports?.getD [], n.origin = .synthesized) :
    (k.source style).print style 0 ((plainScope h style).rootAfter p) =
      ((plainScope h style).rootAfter p).print style 0 := by
  have hat : k.classAt = 2 := if_pos h
  have hholds : k.Holds style (k.source style).tokens k.classAt := k.holds_tokens style
  have hfirst : (k.source style).predecessor? 1 0 = some none := by
    rw [Source.predecessor?, root_plain h]
    rfl
  have hchildren : k.Surrounded (k.source style) style .file 1 1
      ((plainScope h style).childrenAfter p) := by
    refine surrounded_childrenAfter (by rw [hat]; rfl) rfl rfl himports hfirst (by rw [hat]; decide) ?_
    rw [hat]
    exact k.between_gap style
  rw [rootAfter_plain h]
  exact hholds.print_file (k.between_tag style) rfl rfl (fun m hm =>
    ⟨(hchildren.members m hm).1, hholds.print_member (hchildren.members m hm).2⟩) hchildren.passed

theorem print_scoped (h : k.scope.isEmpty = false)
    (himports : ∀ n ∈ p.imports?.getD [], n.origin = .synthesized) :
    (k.source style).print style 0 ((scopedScope h style).rootAfter p) =
      ((scopedScope h style).rootAfter p).print style 0 := by
  have hat : k.classAt = 7 := if_neg (by rw [h]; nofun)
  have hholds : k.Holds style (k.source style).tokens 7 := hat ▸ k.holds_tokens style
  have hscope : ∀ i, i < 5 → (k.source style).tokens[2 + i]? =
      (k.scopeOpening ++ [⟨.whitespace, style.newlines 2⟩])[i]? := getElem?_scope h style
  have hfirst : (k.source style).predecessor? 1 0 = some none := by
    rw [Source.predecessor?, root_scoped h]
    rfl
  have hsecond : (k.source style).predecessor? 2 1 = some none := by
    rw [Source.predecessor?, root_scoped h]
    rfl
  have hchildren : k.Surrounded (k.source style) style .scope 1 6
      ((scopedScope h style).childrenAfter p) := by
    refine surrounded_childrenAfter (by rw [hat]; rfl) rfl rfl himports hfirst (by rw [hat]; decide) ?_
    rw [hat, Tokens.between_succ (hscope 4 (by decide))]
    exact (List.append_nil _).symm
  have hprint := hholds.print_scope hat hscope rfl rfl hchildren
    (n := k.scopeNode ((scopedScope h style).childrenAfter p))
  have hfits : (k.source style).Fits style .file 0 2 1
      (k.scopeNode ((scopedScope h style).childrenAfter p)) := by
    intro a ha
    cases ha
    exact ⟨hsecond, k.between_gap style⟩
  rw [rootAfter_scoped h]
  exact hholds.print_file (k.between_tag style) rfl rfl
    (List.forall_mem_singleton.2 ⟨hfits, hprint⟩) rfl

/-- The class of a generated file and its scope print alike after any run. -/
theorem exists_scope (k : Skeleton) (style : Style) : ∃ sc : (k.source style).ClassScope,
    (∀ n ∈ sc.importsAfter {}, n.origin = .synthesized) ∧
      ∀ p : Progress, (∀ n ∈ p.imports?.getD [], n.origin = .synthesized) →
        (k.source style).print style 0 (sc.rootAfter p) = (sc.rootAfter p).print style 0 := by
  cases h : k.scope.isEmpty with
  | true => exact ⟨plainScope h style, nofun, fun _ => print_plain h⟩
  | false => exact ⟨scopedScope h style, nofun, fun _ => print_scoped h⟩

end Skeleton

/-- Whatever is added to a generated file, it prints by its source as it does without it. -/
theorem render_generated {k : Skeleton} {style : Style} {text : Text}
    (h : k.generate style = .ok text) : ∃ e, Editor.parse text style = .ok e ∧ e.style = style ∧
      ∀ ops e', e.applyAll ops = .ok e' → e'.render = e'.working.print e'.style := by
  refine ⟨_, Skeleton.parse_generate h style, rfl, fun ops e' ha => ?_⟩
  obtain ⟨hsound, -⟩ := Skeleton.generate_cases h
  have hf := Source.faithful_of_parse
    (show Source.parse _ = .ok (k.plain.source style) from Skeleton.parse_tokens hsound)
  obtain ⟨sc, himports, hprint⟩ := k.plain.exists_scope style
  obtain ⟨hstands, hstyle⟩ := (Editor.stands_read hf sc rfl rfl).applyAll ha
  have hnew := sc.synthesized_foldl himports ops
  calc e'.render
    _ = (k.plain.source style).print e'.style 0 (sc.rootAfter (ops.foldl sc.after {})) :=
      hstands.render hf
    _ = (sc.rootAfter (ops.foldl sc.after {})).print e'.style 0 := by
      rw [hstyle]
      exact hprint _ hnew
    _ = e'.working.root.print e'.style 0 := by
      rw [← hstands.root, Node.print_renumber]

/-- A class in a namespace, in a file with CRLF and a line break at its end. -/
theorem render_generated_crlf : ∃ text e e',
    Skeleton.generate ⟨"\\A\\B", "C"⟩ ⟨"\t", true, .crlf⟩ = .ok text ∧
      Editor.parse text ⟨"\t", true, .crlf⟩ = .ok e ∧
        e.applyAll [.addMethod { name := "f", body := "return 1;" }, .addImports ["X\\Y"]] = .ok e' ∧
          e'.render = e'.working.print e'.style := by
  have hrun : (Skeleton.generate ⟨"\\A\\B", "C"⟩ ⟨"\t", true, .crlf⟩).toOption.any (fun text =>
      (Editor.parse text ⟨"\t", true, .crlf⟩).toOption.any fun e =>
        (e.applyAll [.addMethod { name := "f", body := "return 1;" },
          .addImports ["X\\Y"]]).isOk) = true := by
    decide +kernel
  obtain ⟨text, h, hrun⟩ := Steps.exists_of_any hrun
  obtain ⟨e, hparse, -, hrender⟩ := render_generated h
  rw [hparse] at hrun
  obtain ⟨e', ha⟩ := Steps.exists_of_isOk hrun
  exact ⟨text, e, e', h, hparse, ha, hrender _ e' ha⟩

end PhpGraft
