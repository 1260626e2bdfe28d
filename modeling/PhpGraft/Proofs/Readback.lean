import Mathlib.Data.List.Dedup
import Mathlib.Data.List.DropRight
import PhpGraft.Proofs.ImportLines
import PhpGraft.Proofs.Merging

/-!
Imports of a new file, read back from its text. Names are sorted and told apart as they are spelled,
and read without backslashes in front; the two agree on names with at most one backslash there.
-/
namespace PhpGraft

/-- Each name once, in the order of imports. -/
def Name.inOrder (names : List Text) : List Text := names.dedup.mergeSort Text.shortLexLE

namespace Source

variable {s : Source} {style : Style} {b : Bool} {c : Container} {level parent stop : Nat} {n : Node}
  {ns : List Node}

/-! Whether new files end with a line break does not show in what is added to a file. -/

theorem printList_finalNewline (cur : Cursor) (h : ∀ n ∈ ns,
    s.print { style with finalNewline := b } (c.childLevel level) n =
      s.print style (c.childLevel level) n) :
    s.printList { style with finalNewline := b } c level parent stop cur ns =
      s.printList style c level parent stop cur ns := by
  induction ns generalizing cur with
  | nil => rfl
  | cons n ns ih =>
    obtain ⟨hn, hns⟩ := List.forall_mem_cons.1 h
    rw [printList, printList, hn, ih _ hns]
    rfl

theorem print_finalNewline {a : Anchor} (ha : n.origin.anchor? = some a) (h : ∀ m ∈ n.children,
    s.print { style with finalNewline := b } ((Container.ofDecl n.decl).childLevel level) m =
      s.print style ((Container.ofDecl n.decl).childLevel level) m) :
    s.print { style with finalNewline := b } level n = s.print style level n := by
  obtain ⟨id, origin, decl, children⟩ := n
  have ha : origin.anchor? = some a := ha
  rw [print, print, ha]
  cases hbody : a.body? with
  | none => simp only [hbody]
  | some body => simp only [hbody, printList_finalNewline _ h]

end Source

namespace Skeleton

variable {k : Skeleton} {style : Style} {c : Container} {names : List Text} {is : List Node} {n : Node}

/-- Imports of these names, and a class without members behind them. -/
structure Lines (k : Skeleton) (names : List Text) (is : List Node) (n : Node) : Prop where
  imports : is.map Node.decl = names.map fun name => .imports (.ofClass name)
  decl : n.decl = .classLike (.ofName k.name)
  children : n.children = []

theorem exists_head (is : List Node) (n : Node) :
    ∃ d, (is ++ [n]).head?.map Node.decl = some d := by
  cases is <;> exact ⟨_, rfl⟩

theorem gap_import (c : Container) (i : Import) {d : Decl} (h : k.Lines names is n)
    (hd : (is ++ [n]).head?.map Node.decl = some d) : c.gap (some (.imports i)) d = breaks names := by
  cases names with
  | nil =>
    obtain rfl : is = [] := List.map_eq_nil_iff.1 h.imports
    cases hd
    rw [h.decl]
    rfl
  | cons name names =>
    obtain ⟨m, is, rfl, hm, -⟩ := List.map_eq_cons_iff.1 h.imports
    cases hd
    rw [hm]
    rfl

theorem print_import {m : Node} {name : Text} (hm : m.decl = .imports (.ofClass name)) :
    m.print style 0 = Token.spell (Tokens.importOf name) := by
  rw [Node.print_eq, hm, Tokens.spell_importOf, ← Import.print_ofClass]
  rfl

/-- The lines are printed as the file has them, whatever stands in front of them. -/
theorem printList_lines (h : k.Lines names is n) {prev? : Option Decl} {d : Decl}
    (hd : (is ++ [n]).head?.map Node.decl = some d) :
    Node.printList style c 0 prev? (is ++ [n]) ++ lastText style =
      style.newlines (c.gap prev? d) ++ Token.spell (Tokens.Chunk.all (k.chunks style names)) := by
  induction names generalizing is prev? d with
  | nil =>
    obtain rfl : is = [] := List.map_eq_nil_iff.1 h.imports
    cases hd
    rw [List.nil_append, Node.printList_cons, Node.printList_nil, print_class h.decl h.children,
      spell_chunks_nil]
    simp [Style.indentation, Text.times]
  | cons name names ih =>
    obtain ⟨m, is, rfl, hm, his⟩ := List.map_eq_cons_iff.1 h.imports
    cases hd
    have hrest : k.Lines names is n := ⟨his, h.decl, h.children⟩
    obtain ⟨d, hd⟩ := exists_head is n
    rw [List.cons_append, Node.printList_cons, print_import hm, List.append_assoc, ih hrest hd,
      spell_chunks_cons, hm, gap_import c _ hrest hd]
    simp [Style.indentation, Text.times]

/-! The file with the lines is printed. -/

theorem print_plain_lines (h : k.scope.isEmpty = true) (hlines : k.Lines names is n) (id : Nat) :
    (k.fileNode style id (is ++ [n])).print style 0 = Token.spell (k.tokensWith style names) := by
  obtain ⟨d, hd⟩ := exists_head is n
  change Node.frame style 0 .file (Node.printList style .file 0 none (is ++ [n])) = _
  rw [frame_file, printList_lines hlines hd, spell_tokensWith, scopeTokens, if_pos h]
  change _ ++ (style.newlines 1 ++ _) = _ ++ (_ ++ ([] ++ _))
  rw [newlines_one, List.nil_append]

theorem print_scoped_lines (h : k.scope.isEmpty = false) (hlines : k.Lines names is n) (id : Nat) :
    (k.fileNode style id [k.scopeNode (is ++ [n])]).print style 0 =
      Token.spell (k.tokensWith style names) := by
  obtain ⟨d, hd⟩ := exists_head is n
  change Node.frame style 0 .file (Node.printList style .file 0 none [k.scopeNode (is ++ [n])]) = _
  rw [frame_file, printList_single, Node.print_eq]
  change _ ++ (style.newlines 1 ++ Node.frame style 0 (.scope (some k.scope) false)
    (Node.printList style .scope 0 none (is ++ [n])) ++ _) = _
  rw [frame_scope, List.append_assoc, List.append_assoc, List.append_assoc,
    printList_lines hlines hd, spell_tokensWith, scopeTokens, if_neg (Bool.eq_false_iff.1 h),
    newlines_one]
  simp [Token.spell, Container.gap]

theorem childrenAfter_imports {s : Source} {sc : s.ClassScope} (hbefore : sc.before = [])
    (hbehind : sc.behind = []) (is : List Node) :
    sc.childrenAfter ⟨some is, []⟩ = is ++ [sc.cls.detach] := by
  have hcls : sc.extended ⟨some is, []⟩ = sc.cls := by
    change sc.cls.withChildren (· ++ []) = sc.cls
    cases sc.cls
    exact congrArg (Node.mk _ _ _) (List.append_nil _)
  have hmiddle : sc.middle ⟨some is, []⟩ = sc.cls.detach := congrArg Node.detach hcls
  rw [Source.ClassScope.childrenAfter, hmiddle]
  simp [Source.ClassScope.front, Source.ClassScope.back, hbefore, hbehind, Node.others]

theorem print_line_finalNewline {s : Source} {b : Bool} {a : Nat}
    (hnew : ∀ n ∈ is, n.origin = .synthesized)
    (his : is.map Node.decl = names.map fun name => .imports (.ofClass name)) :
    ∀ n ∈ is ++ [(k.classNode a).detach],
      s.print { style with finalNewline := b } 0 n = s.print style 0 n := by
  intro n hn
  rcases List.mem_append.1 hn with hn | hn
  · have hd : n.decl ∈ is.map Node.decl := List.mem_map_of_mem hn
    rw [his] at hd
    obtain ⟨name, -, hd⟩ := List.mem_map.1 hd
    rw [Source.print_synthesized (hnew n hn), Source.print_synthesized (hnew n hn), Node.print_eq,
      Node.print_eq, ← hd]
    rfl
  · obtain rfl := List.mem_singleton.1 hn
    exact Source.print_finalNewline rfl nofun

/-- A new file with imports and nothing else added to it. -/
theorem exists_scope_lines (k : Skeleton) (style : Style) : ∃ sc : (k.source style).ClassScope,
    sc.importsAfter {} = [] ∧ ∀ (b : Bool) (names : List Text) (is : List Node),
      (∀ n ∈ is, n.origin = .synthesized) →
      is.map Node.decl = names.map (fun name => .imports (.ofClass name)) →
        (k.source style).print { style with finalNewline := b } 0 (sc.rootAfter ⟨some is, []⟩) =
          Token.spell (k.tokensWith style names) := by
  cases h : k.scope.isEmpty with
  | true =>
    refine ⟨plainScope h style, rfl, fun b names is hnew his => ?_⟩
    have hchildren : (plainScope h style).childrenAfter ⟨some is, []⟩ =
      is ++ [(k.classNode 2).detach] := childrenAfter_imports rfl rfl is
    have hprint : (k.source style).print style 0
      ((plainScope h style).rootAfter ⟨some is, []⟩) = _ := print_plain h hnew
    rw [rootAfter_plain h, hchildren] at hprint ⊢
    rw [Source.print_finalNewline rfl (print_line_finalNewline hnew his), hprint,
      print_plain_lines h ⟨his, rfl, rfl⟩]
  | false =>
    refine ⟨scopedScope h style, rfl, fun b names is hnew his => ?_⟩
    have hchildren : (scopedScope h style).childrenAfter ⟨some is, []⟩ =
      is ++ [(k.classNode 7).detach] := childrenAfter_imports rfl rfl is
    have hprint : (k.source style).print style 0
      ((scopedScope h style).rootAfter ⟨some is, []⟩) = _ := print_scoped h hnew
    rw [rootAfter_scoped h, hchildren] at hprint ⊢
    have hscope : (k.source style).print { style with finalNewline := b } 0
        (k.scopeNode (is ++ [(k.classNode 7).detach])) = (k.source style).print style 0 _ :=
      Source.print_finalNewline rfl (print_line_finalNewline hnew his)
    have hfile : (k.source style).print { style with finalNewline := b } 0
        (k.fileNode style 2 [k.scopeNode (is ++ [(k.classNode 7).detach])]) =
          (k.source style).print style 0 _ :=
      Source.print_finalNewline rfl (List.forall_mem_singleton.2 hscope)
    rw [hfile, hprint, print_scoped_lines h ⟨his, rfl, rfl⟩]

/-! What is read of the lines. -/

theorem decl_ofImportOf (name : Text) : (Node.ofImportOf name).decl = .ofImportOf name := rfl

theorem isScope_ofImportOf (name : Text) : (Node.ofImportOf name).decl.isScope = false := by
  rw [decl_ofImportOf, Decl.ofImportOf]
  cases Name.reread? name <;> rfl

theorem lastClass?_entriesWith (k : Skeleton) (names : List Text) :
    Node.lastClass? (k.entriesWith names) = some names.length := by
  have hlast : Node.lastClass? (names.map Node.ofImportOf ++ (k.classNode 0).bare :: []) = _ :=
    Node.lastClass?_append rfl (List.forall_mem_nil _)
  rwa [List.length_map] at hlast

theorem isScope_entriesWith : ∀ n ∈ k.entriesWith names, n.decl.isScope = false := by
  intro n hn
  rcases List.mem_append.1 hn with hn | hn
  · obtain ⟨name, -, rfl⟩ := List.mem_map.1 hn
    exact isScope_ofImportOf name
  · obtain rfl := List.mem_singleton.1 hn
    rfl

theorem imports_entriesWith (k : Skeleton) (names : List Text) :
    ((k.entriesWith names).filter Node.isImport).map Node.decl =
      (names.filterMap Name.reread?).map fun name => .imports (.ofClass name) := by
  induction names with
  | nil => rfl
  | cons name names ih =>
    have hdecl := decl_ofImportOf name
    rw [Decl.ofImportOf] at hdecl
    change ((Node.ofImportOf name :: k.entriesWith names).filter _).map _ = _
    cases hread : Name.reread? name with
    | none =>
      rw [hread] at hdecl
      have hno : (Node.ofImportOf name).isImport = false := by rw [Node.isImport, hdecl]; rfl
      rw [List.filter_cons_of_neg (by rw [hno]; exact Bool.false_ne_true), ih, List.filterMap_cons_none hread]
    | some q =>
      rw [hread] at hdecl
      have hyes : (Node.ofImportOf name).isImport = true := by rw [Node.isImport, hdecl]; rfl
      rw [List.filter_cons_of_pos hyes, List.map_cons, ih, hdecl, List.filterMap_cons_some hread]
      rfl

theorem scopeImports_rootWith (k : Skeleton) (names : List Text) :
    (∃ place, (k.rootWith names).classScope? = some place) ∧
      (k.rootWith names).scopeImports.map Node.decl =
        (names.filterMap Name.reread?).map fun name => .imports (.ofClass name) := by
  cases h : k.scope.isEmpty with
  | true =>
    have hchildren : (k.rootWith names).children = k.entriesWith names := if_pos h
    have hplace : (k.rootWith names).classScope? = some ([], names.length) := by
      rw [Node.classScope?_file_iff, hchildren]
      refine ⟨fun n hn => ?_, k.lastClass?_entriesWith names⟩
      rw [Node.scopeClass?, isScope_entriesWith n hn]
      rfl
    refine ⟨⟨_, hplace⟩, ?_⟩
    rw [Node.scopeImports, hplace, ← imports_entriesWith k names, ← hchildren]
    rfl
  | false =>
    have hchildren : (k.rootWith names).children =
        [⟨0, .synthesized, .scope (some k.scope) false, k.entriesWith names⟩] :=
      if_neg (Bool.eq_false_iff.1 h)
    have hplace : (k.rootWith names).classScope? = some ([0], names.length) := by
      rw [Node.classScope?_scope_iff, hchildren]
      exact ⟨k.lastClass?_entriesWith names, fun j hj => absurd hj (Nat.not_lt_zero j)⟩
    refine ⟨⟨_, hplace⟩, ?_⟩
    rw [Node.scopeImports, hplace, ← imports_entriesWith k names]
    simp only [Node.at?, hchildren]
    rfl

end Skeleton

theorem Node.scopeImports_bare (n : Node) : n.bare.scopeImports = n.scopeImports.map bare := by
  rw [scopeImports, scopeImports, classScope?_bare]
  cases n.classScope? with
  | none => rfl
  | some place =>
    simp only [at?_bare]
    cases n.at? place.1 with
    | none => rfl
    | some m =>
      simp only [Option.map_some, Option.getD_some, bare_children, List.filter_map]
      congr 2
      funext c
      rw [Function.comp_apply, isImport, isImport, bare_decl]

theorem Node.scopeImports_of_bare {m n : Node} (h : m.bare = n) :
    m.classScope? = n.classScope? ∧
      m.scopeImports.map decl = n.scopeImports.map decl := by
  subst h
  refine ⟨(classScope?_bare m).symm, ?_⟩
  rw [scopeImports_bare, List.map_map]
  congr 1
  funext c
  exact (bare_decl c).symm

/-! The names in their order. -/

namespace Name

variable {name : Text} {names : List Text}

theorem mem_inOrder : name ∈ inOrder names ↔ name ∈ names := by
  rw [inOrder, (List.mergeSort_perm _ _).mem_iff, List.mem_dedup]

/-- Names that were told apart in another way are the same in order. -/
theorem mergeSort_eq_inOrder {qs : List Text} (hq : qs.Nodup) (hmem : ∀ q, q ∈ qs ↔ q ∈ names) :
    qs.mergeSort Text.shortLexLE = inOrder names := by
  have hsorted : ∀ ns : List Text, (ns.mergeSort Text.shortLexLE).Pairwise
      (Text.shortLexLE · · = true) :=
    List.pairwise_mergeSort (fun _ _ _ => Text.shortLexLE_trans) Text.shortLexLE_total
  refine List.Perm.eq_of_pairwise (fun _ _ _ _ => Text.shortLexLE_antisymm) (hsorted _) (hsorted _) ?_
  refine (List.mergeSort_perm _ _).trans (.trans ?_ (List.mergeSort_perm _ _).symm)
  rw [List.perm_ext_iff_of_nodup hq (List.nodup_dedup names)]
  exact fun q => (hmem q).trans List.mem_dedup.symm

theorem inOrder_eq {qs : List Text} (hq : qs.Nodup) (hsorted : qs.Pairwise (Text.shortLexLE · · = true))
    (hmem : ∀ q, q ∈ qs ↔ q ∈ names) : inOrder names = qs :=
  (mergeSort_eq_inOrder hq hmem).symm.trans (List.mergeSort_of_pairwise hsorted)

/-- One backslash in front is left out where a name is asked for, all of them where it is read. -/
theorem plainName_eq_normalize (h : ¬("\\\\" : Text) <+: name.trim) :
    Editor.plainName name = normalize name := by
  rw [Editor.plainName, normalize, withoutRoot, Text.dropPrefix?]
  cases ht : name.trim with
  | nil => rfl
  | cons c t =>
    by_cases hc : c = '\\'
    · subst hc
      cases t with
      | nil => rfl
      | cons d t =>
        have hd : d ≠ '\\' := by
          rintro rfl
          exact h (ht ▸ List.prefix_append [_, _] t)
        simp [hd]
    · simp [hc, Ne.symm hc]

theorem reread?_normalize (h : (normalize name).lower ≠ "function")
    (h' : (normalize name).lower ≠ "const") :
    reread? (normalize name) = some (normalize name) := by
  rw [reread?, if_neg (not_or.2 ⟨h, h'⟩), normalize, List.dropWhile_idempotent]

end Name

namespace Source

/-- Without imports before, there is one import for each name. -/
theorem merged_nil (s : Source) (names : List Text) :
    s.merged names [] = (Name.inOrder names).map s.newImport := by
  have hnames := Name.mergeSort_eq_inOrder (Node.nodup_unboundNames [] names)
    fun q => Node.mem_unboundNames.trans (and_iff_left List.not_mem_nil)
  have hsort : ((Node.unboundNames [] names).mergeSort Text.shortLexLE).map s.newImport =
      Node.sortImports ((Node.unboundNames [] names).map s.newImport) :=
    List.map_mergeSort fun _ _ _ _ => rfl
  rw [← hnames, hsort]
  rfl

end Source

namespace Editor

/-- What is read from a new file that imports of `names` were added to. -/
structure ReadsBack (names : List Text) (s : Source) : Prop where
  edited : ∃ place, s.tree.root.classScope? = some place
  /-- Names are told apart and sorted before the backslashes in front of them are left out. -/
  imports : s.tree.root.scopeImports.map Node.decl =
    ((Name.inOrder (names.map plainName)).filterMap Name.reread?).map fun name =>
      .imports (.ofClass name)
  /-- Names with at most one backslash in front that are no keywords are imported as they are. -/
  normalized : (∀ name ∈ names, ¬("\\\\" : Text) <+: name.trim ∧
      (Name.normalize name).lower ≠ "function" ∧ (Name.normalize name).lower ≠ "const") →
    s.tree.root.scopeImports.map Node.decl =
      (Name.inOrder (names.map Name.normalize)).map fun name => .imports (.ofClass name)

end Editor

/-- A new file does not depend on the indentation of its style. -/
theorem Skeleton.generate_congr {k : Skeleton} {style style' : Style} {text : Text}
    (h : k.generate style = .ok text) (hline : style'.lineEnding = style.lineEnding)
    (hlast : style'.finalNewline = style.finalNewline) : k.generate style' = .ok text := by
  have hprint : ∀ k : Skeleton, k.tree.print style' = k.tree.print style := by
    intro k
    obtain ⟨indent, finalNewline, lineEnding⟩ := style
    obtain ⟨indent', finalNewline', lineEnding'⟩ := style'
    cases hline
    cases hlast
    rw [print_tree, print_tree]
    rfl
  unfold generate at h ⊢
  simp only [hprint]
  exact h

open Editor in
/-- A new file with imports is read as one with a line for each name that is told apart. -/
theorem Skeleton.reread_lines {k : Skeleton} {style other : Style} {text : Text} {e e' : Editor}
    {names : List Text} (h : k.generate style = .ok text) (he : Editor.parse text other = .ok e)
    (ha : e.addImports names = .ok e') : ∃ s, Source.parse e'.render = .ok s ∧
      s.tree.root.bare = k.plain.rootWith (Name.inOrder (names.map plainName)) := by
  -- the editor's own style, but for how new files end
  let own : Style := ⟨other.indent, style.finalNewline, style.lineEnding⟩
  replace h : k.generate own = .ok text := generate_congr h rfl rfl
  obtain ⟨hsound, -⟩ := generate_cases h
  rw [parse_generate h] at he
  cases he
  have hf := Source.faithful_of_parse
    (show Source.parse _ = .ok (k.plain.source own) from parse_tokens hsound)
  obtain ⟨sc, hnone, hprint⟩ := k.plain.exists_scope_lines own
  have hqualified : ∀ name ∈ Name.inOrder (names.map plainName), Name.isQualified name = true := by
    obtain ⟨_, hq, -⟩ := addImports_place ha
    exact fun name hname => hq name (Name.mem_inOrder.1 hname)
  have happly : Editor.apply _ (.addImports names) = .ok e' := ha
  obtain ⟨hstands, hstyle⟩ := (stands_read hf sc rfl rfl).apply happly
  have hrender : e'.render =
      Token.spell (k.plain.tokensWith own (Name.inOrder (names.map plainName))) := by
    rw [hstands.render hf, hstyle, Source.ClassScope.after, hnone, Source.merged_nil]
    refine hprint other.finalNewline _ _ (fun n hn => ?_) ?_
    · obtain ⟨name, -, rfl⟩ := List.mem_map.1 hn
      rfl
    · rw [List.map_map]
      rfl
  rw [hrender]
  exact parse_tokensWith own hsound hqualified

open Editor in
/-- The imports of a new file are read back in their order, each name as it is spelled but for the
backslashes in front. -/
theorem reread_addImports {k : Skeleton} {style other : Style} {text : Text} {e e' : Editor}
    {names : List Text} (h : k.generate style = .ok text) (he : Editor.parse text other = .ok e)
    (ha : e.addImports names = .ok e') :
    ∃ s, Source.parse e'.render = .ok s ∧ ReadsBack names s := by
  obtain ⟨s, hs, hbare⟩ := Skeleton.reread_lines h he ha
  obtain ⟨hscope, himports⟩ := Node.scopeImports_of_bare hbare
  obtain ⟨hedited, hlines⟩ := k.plain.scopeImports_rootWith (Name.inOrder (names.map plainName))
  refine ⟨s, hs, hscope ▸ hedited, himports.trans hlines, fun hnames => ?_⟩
  have hplain : names.map plainName = names.map Name.normalize :=
    List.map_congr_left fun name hname => Name.plainName_eq_normalize (hnames name hname).1
  rw [himports, hlines, hplain]
  refine congrArg _ ((List.filterMap_congr fun q hq => ?_).trans List.filterMap_some)
  obtain ⟨name, hname, rfl⟩ := List.mem_map.1 (Name.mem_inOrder.1 hq)
  exact Name.reread?_normalize (hnames name hname).2.1 (hnames name hname).2.2

/-- One name in two spellings, with white space around one of them, and one name behind a namespace. -/
theorem reread_addImports_spellings : ∃ text e e' s,
    Skeleton.generate ⟨"\\A\\B", "C"⟩ ⟨"\t", true, .crlf⟩ = .ok text ∧ Editor.parse text = .ok e ∧
      e.addImports ["X\\Y", " \\B ", "B"] = .ok e' ∧ Source.parse e'.render = .ok s ∧
        Editor.ReadsBack ["X\\Y", " \\B ", "B"] s ∧ s.tree.root.scopeImports.map Node.decl =
          [.imports (.ofClass "B"), .imports (.ofClass "X\\Y")] := by
  let names : List Text := ["X\\Y", " \\B ", "B"]
  let sorted : List Text := ["B", "X\\Y"]
  have hrun : (Skeleton.generate ⟨"\\A\\B", "C"⟩ ⟨"\t", true, .crlf⟩).toOption.any (fun text =>
      (Editor.parse text).toOption.any fun e => (e.addImports names).toOption.any fun _ => true) =
        true := by
    decide +kernel
  have hnames : ∀ name ∈ names, ¬("\\\\" : Text) <+: name.trim ∧
      (Name.normalize name).lower ≠ "function" ∧ (Name.normalize name).lower ≠ "const" := by
    decide +kernel
  have horder : Name.inOrder (names.map Name.normalize) = sorted := by
    have hmap : names.map Name.normalize = (["X\\Y", "B", "B"] : List Text) := by decide +kernel
    refine Name.inOrder_eq (by decide +kernel) (by decide +kernel) fun q => ?_
    simp [hmap, sorted, or_comm]
  obtain ⟨text, htext, hrun⟩ := Steps.exists_of_any hrun
  obtain ⟨e, he, hrun⟩ := Steps.exists_of_any hrun
  obtain ⟨e', ha, -⟩ := Steps.exists_of_any hrun
  obtain ⟨s, hs, hread⟩ := reread_addImports htext he ha
  have hnormalized := hread.normalized hnames
  rw [horder] at hnormalized
  exact ⟨text, e, e', s, htext, he, ha, hs, hread, hnormalized⟩

/-- A second backslash in front makes another name of it, and the name is read twice. -/
theorem reread_addImports_twice : ∃ text e e' s,
    Skeleton.generate ⟨"N", "C"⟩ {} = .ok text ∧ Editor.parse text = .ok e ∧
      e.addImports ["Foo", "\\\\Foo"] = .ok e' ∧ Source.parse e'.render = .ok s ∧
        s.tree.root.scopeImports.map Node.decl =
          [.imports (.ofClass "Foo"), .imports (.ofClass "Foo")] ∧
        Name.inOrder ((["Foo", "\\\\Foo"] : List Text).map Name.normalize) = (["Foo"] : List Text) := by
  let names : List Text := ["Foo", "\\\\Foo"]
  let kept : List Text := ["Foo", "\\Foo"]
  let read : List Text := ["Foo", "Foo"]
  have hrun : (Skeleton.generate ⟨"N", "C"⟩ {}).toOption.any (fun text =>
      (Editor.parse text).toOption.any fun e => (e.addImports names).toOption.any fun _ => true) =
        true := by
    decide +kernel
  have hnormal : Name.inOrder (names.map Name.normalize) = (["Foo"] : List Text) := by
    have hmap : names.map Name.normalize = read := by decide +kernel
    refine Name.inOrder_eq (by decide +kernel) (by decide +kernel) fun q => ?_
    simp [hmap, read]
  have hplain : Name.inOrder (names.map Editor.plainName) = kept := by
    have hmap : names.map Editor.plainName = kept := by decide +kernel
    refine Name.inOrder_eq (by decide +kernel) (by decide +kernel) fun q => ?_
    rw [hmap]
  have hread : kept.filterMap Name.reread? = read := by decide +kernel
  obtain ⟨text, htext, hrun⟩ := Steps.exists_of_any hrun
  obtain ⟨e, he, hrun⟩ := Steps.exists_of_any hrun
  obtain ⟨e', ha, -⟩ := Steps.exists_of_any hrun
  obtain ⟨s, hs, hbare⟩ := Skeleton.reread_lines htext he ha
  refine ⟨text, e, e', s, htext, he, ha, hs, ?_, hnormal⟩
  rw [(Node.scopeImports_of_bare hbare).2, (Skeleton.scopeImports_rootWith _ _).2, hplain, hread]
  rfl

end PhpGraft
