import PhpGraft.Proofs.MethodText
import PhpGraft.Proofs.Steps

/-!
Heredocs in the body of a printed method. Unlike the lines of a quoted string those of a heredoc are
moved like code: the value loses the white space at the end of each line and takes on the line breaks
of the file.
-/
namespace PhpGraft

open Lexer

namespace Text

variable {c : Char} {s t x y : Text} {e : LineEnding}

theorem append_cons_inj (hs : c ∉ s) (ht : c ∉ t) (h : s ++ c :: x = t ++ c :: y) : s = t ∧ x = y := by
  have hsplit := congrArg (splitOn c) h
  rw [splitOn_append_cons hs, splitOn_append_cons ht] at hsplit
  obtain rfl : s = t := (List.cons.inj hsplit).1
  exact ⟨rfl, (List.cons.inj (List.append_cancel_left h)).2⟩

/-- Lines that are trimmed and get other breaks make up the same text only if each of them stays. -/
theorem flatMap_trimEnd_eq_iff {ls : List Text} (h : ∀ l ∈ ls, '\n' ∉ l) :
    ls.flatMap (·.trimEnd ++ e.text) = ls.flatMap (· ++ ['\n']) ↔
      ∀ l ∈ ls, l.trimEnd ++ e.text = l ++ ['\n'] := by
  obtain ⟨cr, he, -, -, hcr⟩ := Heredoc.exists_carriage e
  refine ⟨fun heq => ?_, fun hall => List.flatMap_congr hall⟩
  induction ls with
  | nil => exact List.forall_mem_nil _
  | cons l ls ih =>
    obtain ⟨hl, hls⟩ := List.forall_mem_cons.1 h
    have hleft : '\n' ∉ l.trimEnd ++ cr := by
      rw [List.mem_append, not_or]
      exact ⟨fun hn => hl (mem_of_mem_trimEnd hn), hcr⟩
    rw [List.flatMap_cons, List.flatMap_cons, he, ← List.append_assoc, List.append_assoc,
      List.append_assoc l] at heq
    obtain ⟨hline, hrest⟩ := append_cons_inj hleft hl heq
    refine List.forall_mem_cons.2 ⟨?_, ih hls ?_⟩
    · rw [he, ← List.append_assoc, hline]
    · rw [he]
      exact hrest

end Text

theorem Heredoc.not_mem_content (t l : Text) (hl : l ∈ (ofText t).content) : '\n' ∉ l := by
  obtain ⟨s, hs, rfl⟩ := List.mem_map.1 hl
  exact fun hn => Text.not_mem_of_mem_splitOn (List.mem_of_mem_tail (List.dropLast_subset _ hs))
    (List.drop_subset _ _ hn)

/-- The heredocs of a printed method are those of its body, one by one and in order. Each has the
label it had; its value is the value it had with the lines trimmed at their end and the line breaks
of the style, and so the same value just when that changes no line. -/
theorem lexCode_print_heredocs {style : Style} {m : NewMethod} {d : Method} {ts : List Token}
    (hm : m.Movable) (hname : Name.isIdentifier m.name = true) (hd : m.method? = .ok d)
    (hi : ∀ c ∈ style.indent, isIndent c = true) (hts : lexCode (fragmentCode m.body) = .ok ts)
    (level : Nat) : ∃ us, lexCode (d.print style level) = .ok us ∧
      List.Forall₂ (fun t u =>
        (Heredoc.ofText u.text).label = (Heredoc.ofText t.text).label ∧
        (Heredoc.ofText u.text).value =
          (Heredoc.ofText t.text).content.flatMap (·.trimEnd ++ style.newline) ∧
        ((Heredoc.ofText u.text).value = (Heredoc.ofText t.text).value ↔
          ∀ l ∈ (Heredoc.ofText t.text).content, l.trimEnd ++ style.newline = l ++ ['\n']))
      (Token.heredocs ts) (Token.heredocs us) := by
  obtain ⟨gap, moved, xs, hrendered⟩ := Tokens.exists_rendered hm hname hd hi level
  refine ⟨_, hrendered.reads.run _, ?_⟩
  have hhead : Token.heredocs (Tokens.methodTokens style level m gap [] xs) = Token.heredocs xs := by
    rw [Tokens.methodTokens, List.nil_append, Token.heredocs_append, Token.heredocs_append]
    exact List.append_nil _
  rw [hhead]
  refine (hrendered.heredocs ts hts).imp fun t u htu => ⟨htu.label, htu.value, ?_⟩
  rw [htu.value]
  exact Text.flatMap_trimEnd_eq_iff (Heredoc.not_mem_content t.text)

theorem exists_singleton {xs : List Token} {p : Token → Bool}
    (h : (decide (xs.length = 1) && xs.all p) = true) : ∃ x, xs = [x] ∧ p x = true := by
  obtain ⟨hlen, hp⟩ := Bool.and_eq_true_iff.1 h
  obtain ⟨x, rfl⟩ := List.length_eq_one_iff.1 (of_decide_eq_true hlen)
  exact ⟨x, rfl, List.all_eq_true.1 hp x List.mem_cons_self⟩

/-- A heredoc that is indented like the code around it. -/
theorem lexCode_print_heredocs_indented : ∃ m d ts us t u,
    m = ({ name := "f", body := "if ($a) \x7b\n  $x = <<<X\n    a\n\n      b\n    X;\n\x7d" } : NewMethod) ∧
      m.Movable ∧ m.method? = .ok d ∧ lexCode (fragmentCode m.body) = .ok ts ∧
      lexCode (d.print { indent := "\t" } 1) = .ok us ∧
      Token.heredocs ts = [t] ∧ Token.heredocs us = [u] ∧
      (Heredoc.ofText u.text).label = "X" ∧ (Heredoc.ofText u.text).value = "a\n\n  b\n" := by
  let m : NewMethod :=
    { name := "f", body := "if ($a) \x7b\n  $x = <<<X\n    a\n\n      b\n    X;\n\x7d" }
  have hm : decide m.Movable = true := by decide +kernel
  have hmethod : m.method?.toOption.any (fun _ => true) = true := by decide +kernel
  have hlex : (lexCode (fragmentCode m.body)).toOption.any (fun ts =>
      decide ((Token.heredocs ts).length = 1) && (Token.heredocs ts).all fun t =>
        decide ((Heredoc.ofText t.text).label = "X" ∧
          (Heredoc.ofText t.text).content = ["a".toList, [], "  b".toList])) = true := by
    decide +kernel
  obtain ⟨d, hd, -⟩ := Steps.exists_of_any hmethod
  obtain ⟨ts, hts, hall⟩ := Steps.exists_of_any hlex
  obtain ⟨t, ht, hparts⟩ := exists_singleton hall
  obtain ⟨hlabel, hcontent⟩ := of_decide_eq_true hparts
  have hindent : ∀ c ∈ (Style.mk "\t" false .lf).indent, isIndent c = true := List.all_eq_true.1 rfl
  obtain ⟨us, hus, hheredocs⟩ := @lexCode_print_heredocs { indent := "\t" } _ _ _
    (of_decide_eq_true hm) (by decide) hd hindent hts 1
  rw [ht] at hheredocs
  obtain ⟨u, v, ⟨hsame, hvalue, -⟩, hnil, hu⟩ := List.forall₂_cons_left_iff.1 hheredocs
  obtain rfl := List.forall₂_nil_left_iff.1 hnil
  refine ⟨m, d, ts, us, t, u, rfl, of_decide_eq_true hm, hd, hts, hus, ht, hu, hsame.trans hlabel, ?_⟩
  rw [hvalue, hcontent]
  decide

/-- The blanks at the end of a line are a part of the value, and are lost. -/
theorem lexCode_print_loses_blanks : ∃ m d ts us t u,
    m = ({ name := "f", body := "$x = <<<X\na  \nX;" } : NewMethod) ∧ m.method? = .ok d ∧
      lexCode (fragmentCode m.body) = .ok ts ∧ lexCode (d.print {} 1) = .ok us ∧
      Token.heredocs ts = [t] ∧ Token.heredocs us = [u] ∧
      (Heredoc.ofText t.text).value = "a  \n" ∧ (Heredoc.ofText u.text).value = "a\n" := by
  let m : NewMethod := { name := "f", body := "$x = <<<X\na  \nX;" }
  have hlex : (lexCode (fragmentCode m.body)).toOption.any (fun ts =>
      decide ((Token.heredocs ts).length = 1) && (Token.heredocs ts).all fun t =>
        decide ((Heredoc.ofText t.text).value = "a  \n")) = true := by
    decide +kernel
  have hprint : m.method?.toOption.any (fun d => (lexCode (d.print {} 1)).toOption.any fun us =>
      decide ((Token.heredocs us).length = 1) && (Token.heredocs us).all fun u =>
        decide ((Heredoc.ofText u.text).value = "a\n")) = true := by
    decide +kernel
  obtain ⟨ts, hts, hall⟩ := Steps.exists_of_any hlex
  obtain ⟨t, ht, hbefore⟩ := exists_singleton hall
  obtain ⟨d, hd, hprint⟩ := Steps.exists_of_any hprint
  obtain ⟨us, hus, hall⟩ := Steps.exists_of_any hprint
  obtain ⟨u, hu, hafter⟩ := exists_singleton hall
  exact ⟨m, d, ts, us, t, u, rfl, hd, hts, hus, ht, hu, of_decide_eq_true hbefore,
    of_decide_eq_true hafter⟩

end PhpGraft
