import PhpGraft.Locator
import PhpGraft.Proofs.Cursor
import PhpGraft.Proofs.Rereading
import PhpGraft.Proofs.Text

/-!
The name of a declared class is spelled in its file. So a file that has nothing like the last part of a
name in it does not declare a class of that name, and need not be parsed.
-/
namespace PhpGraft

namespace Text

variable {c : Char} {s t w : Text}

theorem hasInfix_iff : t.hasInfix s = true ↔ s <:+: t := by
  induction t with
  | nil => simp [hasInfix]
  | cons c t ih =>
    rw [hasInfix, Bool.or_eq_true, List.isPrefixOf_iff_prefix, ih, List.infix_cons_iff]

theorem isInfix_of_mem_splitOn (h : w ∈ splitOn c t) : w <:+: t := by
  rw [← join_splitOn c t]
  cases hsplit : splitOn c t with
  | nil => exact absurd hsplit (splitOn_ne_nil c t)
  | cons v vs =>
    rw [hsplit] at h
    rw [join_cons]
    rcases List.mem_cons.1 h with rfl | h
    · exact (List.prefix_append w _).isInfix
    · have hpiece : [c] ++ w <:+: vs.flatMap ([c] ++ ·) := by
        rw [List.flatMap_def]
        exact List.infix_of_mem_flatten (List.mem_map_of_mem h)
      exact ((List.suffix_append [c] w).isInfix.trans hpiece).trans (List.suffix_append v _).isInfix

theorem splitOn_map {f : Char → Char} (hf : ∀ d, f d = c ↔ d = c) (t : Text) :
    splitOn c (t.map f) = (splitOn c t).map (List.map f) := by
  induction t with
  | nil => rfl
  | cons d t ih =>
    rw [List.map_cons, splitOn, splitOn, ih]
    by_cases hd : d = c
    · rw [if_pos hd, if_pos ((hf d).2 hd)]
      rfl
    · rw [if_neg hd, if_neg (mt (hf d).1 hd)]
      cases splitOn c t <;> rfl

end Text

namespace Name

theorem short_mem (t : Text) : short t ∈ t.splitOn '\\' := by
  rw [short, List.getLast?_eq_some_getLast (Text.splitOn_ne_nil '\\' t)]
  exact List.getLast_mem _

theorem short_lower (t : Text) : short t.lower = (short t).lower := by
  have hsep : ∀ d : Char, d.toLower = '\\' ↔ d = '\\' :=
    fun d => ⟨Cursor.eq_of_toLower (by decide), by rintro rfl; rfl⟩
  rw [short, short, Text.lower, Text.splitOn_map hsep, List.getLast?_map]
  cases (t.splitOn '\\').getLast? <;> rfl

/-- A namespace does not change the last part of a name. -/
theorem short_qualify (scope? : Option Text) (name : Text) :
    short (qualify scope? name) = short name := by
  unfold qualify
  split
  · rw [short, short, Text.splitOn_append, List.getLast?_append,
      List.getLast?_eq_some_getLast (Text.splitOn_ne_nil '\\' name)]
    rfl
  · rfl

end Name

namespace Tokens

variable {ts : Tokens} {p : Place} {i stop last : Nat} {ns : List Node} {n : Node}

theorem isInfix_text (ts : Tokens) (k : Nat) : ts.text k <:+: ts.source := by
  rw [text, source, Token.spell, List.flatMap_def]
  cases hk : ts[k]? with
  | none => exact List.nil_infix
  | some t =>
    obtain ⟨hlt, rfl⟩ := Array.getElem?_eq_some_iff.1 hk
    exact List.infix_of_mem_flatten (List.mem_map_of_mem (Array.mem_toList_iff.2 (Array.getElem_mem hlt)))

/-- The name of a class is a token. -/
theorem name_of_items {head : ClassHead} (h : ts.Items p stop i ns last) (hp : p ≠ .members)
    (hn : n ∈ ns) (hd : n.decl = .classLike head) : ∃ k, head.name = ts.text k := by
  obtain ⟨before, after, rfl⟩ := List.append_of_mem hn
  obtain ⟨mid, -, hrest⟩ := h.split
  cases hrest with
  | @cons _ r _ _ hs he _ =>
    rw [decl_finish] at hd
    have hclass : r.1.decl.isClass = true := by rw [hd]; rfl
    obtain ⟨-, hdecl⟩ := classAt_of_entry hp he hclass
    obtain ⟨c, bases, interfaces, opening, closing, children, -, -, rfl⟩ :=
      classAt_of_declaration hdecl hs hclass
    cases hd
    exact ⟨_, rfl⟩

theorem name_of_declared {root : Node} {c : Text} (h : ts.file = .ok root)
    (hc : c ∈ root.declaredClasses) : ∃ scope? k, c = Name.qualify scope? (ts.text k) := by
  obtain ⟨body, -, ⟨last, hitems, -⟩, -⟩ := entries_of_file h
  obtain ⟨n, hn, hc⟩ := List.mem_flatMap.1 hc
  cases hd : n.decl with
  | scope name? braced =>
    obtain ⟨_, _, _, _, hinner⟩ := items_of_scope hitems hn (by rw [hd]; rfl)
    rw [hd] at hc
    obtain ⟨m, hm, hc⟩ := List.mem_filterMap.1 hc
    split at hc
    · rename_i head hhead
      obtain ⟨k, hk⟩ := name_of_items hinner (by rintro ⟨⟩) hm hhead
      exact ⟨name?, k, hk ▸ (Option.some.inj hc).symm⟩
    · cases hc
  | classLike head =>
    obtain ⟨k, hk⟩ := name_of_items hitems (by rintro ⟨⟩) hn hd
    rw [hd] at hc
    exact ⟨none, k, (List.mem_singleton.1 hc).trans hk⟩
  | _ =>
    rw [hd] at hc
    cases hc

end Tokens

/-- The last part of the name of a declared class stands in its file. -/
theorem Source.isInfix_of_declared {text c : Text} {s : Source} (h : parse text = .ok s)
    (hc : c ∈ s.tree.root.declaredClasses) : Name.short c <:+: text := by
  have hspells := (faithful_of_parse h).spells
  unfold parse at h
  split at h
  · cases h
  split at h
  · cases h
  rename_i root hroot
  cases h
  -- numbering the nodes leaves their declarations
  have hsame : (Node.number 0 root).1.declaredClasses = root.declaredClasses := by
    rw [← Node.declaredClasses_bare, Node.bare_number, Node.declaredClasses_bare]
  obtain ⟨scope?, k, rfl⟩ := Tokens.name_of_declared hroot (hsame ▸ hc)
  rw [Name.short_qualify, ← hspells]
  exact (Text.isInfix_of_mem_splitOn (Name.short_mem _)).trans (Tokens.isInfix_text _ k)

theorem declaresClass_iff (text name : Text) : declaresClass text name = true ↔
    ∃ s, Source.parse text = .ok s ∧ ∃ c ∈ s.tree.root.declaredClasses, c.sameLetters name = true := by
  rw [declaresClass, Bool.and_eq_true]
  cases hs : Source.parse text with
  | error e => exact ⟨fun ⟨_, h⟩ => (nomatch h), fun ⟨_, h, _⟩ => (nomatch h)⟩
  | ok s =>
    rw [List.any_eq_true]
    constructor
    · exact fun h => ⟨s, rfl, h.2⟩
    · rintro ⟨_, ⟨⟩, c, hc, hsame⟩
      -- names that agree have last parts that agree, and that of `c` stands in the text
      refine ⟨Text.hasInfix_iff.2 ?_, c, hc, hsame⟩
      have hshort : (Name.short name).lower = (Name.short c).lower := by
        rw [← Name.short_lower, ← Name.short_lower, eq_of_beq hsame]
      rw [hshort]
      exact (Source.isInfix_of_declared hs hc).map Char.toLower

/-- A file declares a class if one of its declared classes has that name, but for the case of letters;
searching its text first hides none. -/
theorem declares_iff {σ : Type} [Storage (StateM σ)] (name path : Text) (d : σ) :
    ((Locator.declares (Name.normalize name) path : StateM σ Bool).run d).1 = true ↔
      ∃ text s, ((Storage.read path : StateM σ _).run d).1 = .ok text ∧ Source.parse text = .ok s ∧
        ∃ c ∈ s.tree.root.declaredClasses, c.sameLetters (Name.normalize name) = true := by
  have hrun : ((Locator.declares (Name.normalize name) path : StateM σ Bool).run d).1 =
      ((Storage.read path : StateM σ _).run d).1.toOption.any
        fun text => declaresClass text (Name.normalize name) := by
    rw [Locator.declares, StateT.run_bind]
    generalize (Storage.read path : StateM σ _).run d = r
    obtain ⟨text | e, d'⟩ := r <;> rfl
  rw [hrun]
  cases ((Storage.read path : StateM σ _).run d).1 with
  | error e => exact ⟨fun h => (nomatch h), fun ⟨_, _, h, _⟩ => (nomatch h)⟩
  | ok text =>
    refine (declaresClass_iff text _).trans ⟨fun ⟨s, h⟩ => ⟨text, s, rfl, h⟩, ?_⟩
    rintro ⟨_, s, ⟨⟩, h⟩
    exact ⟨s, h⟩

end PhpGraft
