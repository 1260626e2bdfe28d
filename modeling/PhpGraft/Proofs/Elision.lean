import PhpGraft.Proofs.Exchange
import PhpGraft.Proofs.Outline
import PhpGraft.Proofs.Statements

/-!
A semicolon in front of a close tag is left out. What the parser reads in front of its statement and
behind the close tag is read as before, and the statement ends with the close tag.
-/
namespace PhpGraft

/-! What is left of a tree without the texts of its statements. -/

/-- Imports count as statements. -/
def Decl.sketch : Decl → Decl
  | verbatim _ | imports _ => verbatim []
  | method m => method { m with body? := m.body?.map (List.map fun _ => []) }
  | d => d

namespace Node

mutual

/-- The declarations of a node, and its statements without their texts. -/
def sketch : Node → Node
  | ⟨_, _, decl, children⟩ => ⟨0, .synthesized, decl.sketch, sketchList children⟩

def sketchList : List Node → List Node
  | [] => []
  | n :: ns => sketch n :: sketchList ns

end

theorem sketchList_eq (ns : List Node) : sketchList ns = ns.map sketch := by
  induction ns with
  | nil => rfl
  | cons n ns ih => rw [sketchList, ih, List.map_cons]

theorem sketch_eq (n : Node) :
    n.sketch = ⟨0, .synthesized, n.decl.sketch, n.children.map sketch⟩ := by
  cases n
  rw [sketch, sketchList_eq]

mutual

theorem sketch_bare : ∀ n : Node, n.bare.sketch = n.sketch
  | ⟨_, _, _, children⟩ => by rw [bare, sketch, sketch, sketchList_bare children]

theorem sketchList_bare : ∀ ns : List Node, sketchList (bareList ns) = sketchList ns
  | [] => rfl
  | n :: ns => by rw [bareList, sketchList, sketchList, sketch_bare n, sketchList_bare ns]

end

theorem sketch_of_bare {m n : Node} (h : m.bare = n.bare) : m.sketch = n.sketch := by
  rw [← sketch_bare, h, sketch_bare]

theorem map_sketch_of_bare {ms ns : List Node} (h : ms.map bare = ns.map bare) :
    ms.map sketch = ns.map sketch := by
  rw [← sketchList_eq, ← sketchList_eq, ← sketchList_bare, bareList_eq, h, ← bareList_eq,
    sketchList_bare]

/-- A sketch shows the declared classes. -/
theorem declaredClasses_sketch (n : Node) : n.sketch.declaredClasses = n.declaredClasses := by
  simp only [declaredClasses, sketch_eq n, List.flatMap_map]
  congr 1
  funext m
  simp only [sketch_eq m, List.filterMap_map]
  cases m.decl with
  | scope name? braced =>
    simp only [Decl.sketch]
    congr 1
    funext c
    simp only [Function.comp_apply, sketch_eq c]
    cases c.decl <;> rfl
  | _ => rfl

end Node

namespace Tokens

/-! Where the parser comes to. -/

/-- Index of the word `function`, if a method has its modifiers at `head`. -/
def functionAt (ts : Tokens) (head stop : Nat) : Nat := (ts.modifiers memberModifiers head stop).2

/-- Index of the parenthesis behind the name of a method. -/
def parametersAt (ts : Tokens) (head stop : Nat) : Nat :=
  ts.significant ((ts.methodName (ts.functionAt head stop) stop).2 + 1) stop

/-- Index of the brace behind the parameters and the return type. -/
def bodyAt (ts : Tokens) (closing stop : Nat) : Nat :=
  (ts.returnType (ts.significant (closing + 1) stop) stop).2

/-- A method that is read at `first`: its modifiers, and what closes its parameters and its body. -/
structure MethodAt (ts : Tokens) (first stop head closing last : Nat) : Prop where
  attributes : ts.skipAttributes first stop = .ok head
  keyword : ts.isKeyword (ts.functionAt head stop) "function" = true
  name : ts.isName (ts.methodName (ts.functionAt head stop) stop).2 = true
  parenthesis : ts.isPunct (ts.parametersAt head stop) '(' = true
  parameters : ts.matching .round (ts.parametersAt head stop) stop = .ok closing
  opened : ts.isPunct (ts.bodyAt closing stop) '\x7b' = true
  body : ts.matching .curly (ts.bodyAt closing stop) stop = .ok last

/-- What the parser reads one by one: the entries of a list, or the statements of a method. -/
inductive Series where
  | entries (p : Place)
  | statements

/-- The parser comes to an index of a series that ends in front of `stop`. -/
inductive Arrives (ts : Tokens) : Series → Nat → Nat → Prop
  | file {body} : ts.codeSpan? = some body → Arrives ts (.entries .file) body.stop body.start
  | entry {p stop i r} : Arrives ts (.entries p) stop i → ts.significant i stop < stop →
      ts.entry p (ts.leading i (ts.significant i stop)) (ts.significant i stop) stop = .ok r →
      Arrives ts (.entries p) stop (ts.finish stop r).2
  | scope {stop i} : Arrives ts (.entries .file) stop i →
      ts.isNamespace (ts.significant i stop) stop = true →
      (ts.scopeHead (ts.significant i stop) stop).1.isSome = true →
      ts.isPunct (ts.scopeHead (ts.significant i stop) stop).2 ';' = true →
      Arrives ts (.entries (.scope false)) stop ((ts.scopeHead (ts.significant i stop) stop).2 + 1)
  | block {stop i closing} : Arrives ts (.entries .file) stop i →
      ts.isNamespace (ts.significant i stop) stop = true →
      ts.isPunct (ts.scopeHead (ts.significant i stop) stop).2 '\x7b' = true →
      ts.matching .curly (ts.scopeHead (ts.significant i stop) stop).2 stop = .ok closing →
      Arrives ts (.entries (.scope true)) closing ((ts.scopeHead (ts.significant i stop) stop).2 + 1)
  | members {p stop i c bases interfaces opening closing} : Arrives ts (.entries p) stop i →
      p ≠ .members → ts.isNamespace (ts.significant i stop) stop = false →
      ts.ClassAt (ts.significant i stop) stop c bases interfaces opening closing →
      Arrives ts (.entries .members) closing (opening + 1)
  | body {stop i head closing last} : Arrives ts (.entries .members) stop i →
      ts.MethodAt (ts.significant i stop) stop head closing last →
      Arrives ts .statements last (ts.bodyAt closing stop + 1)
  | statement {stop i head next} : Arrives ts .statements stop i →
      ts.skipAttributes (ts.significant i stop) stop = .ok head →
      ts.statementEnd (ts.significant i stop) stop (ts.isBlock head) = .ok next →
      Arrives ts .statements stop (ts.trailing next stop)

variable {ts : Tokens} {p : Place} {l : Series} {i j k n stop first : Nat} {block : Bool}

/-- Where a series ends: a closing brace, or what ends the code of the file. -/
structure Bound (ts : Tokens) (stop : Nat) : Prop where
  le_size : stop ≤ ts.size
  eq_brace : ∀ z, ts.isPunct stop z = true → z = '\x7d'

theorem bound_of_isPunct (h : ts.isPunct stop '\x7d' = true) : ts.Bound stop where
  le_size := Nat.le_of_lt (lt_size_of_isCode (isCode_of_isPunct h))
  eq_brace z hz := by
    by_contra hne
    rw [not_isPunct_of_ne h (Ne.symm hne)] at hz
    cases hz

theorem Bound.not_isPunct (h : ts.Bound stop) {z : Char} (hz : z ≠ '\x7d') : ts.isPunct stop z = false :=
  Bool.eq_false_iff.2 fun hp => hz (h.eq_brace z hp)

theorem Arrives.bound (h : ts.Arrives l stop i) : ts.Bound stop := by
  induction h with
  | file hb =>
    refine ⟨(codeSpan?_bounds hb).2.2.1, fun z hz => ?_⟩
    rw [not_isPunct_stop hb] at hz
    cases hz
  | entry _ _ _ ih => exact ih
  | scope _ _ _ _ ih => exact ih
  | block _ _ hb hm _ => exact bound_of_isPunct (matching_closes (b := .curly) hb hm).2
  | members _ _ _ hc _ =>
    exact bound_of_isPunct (matching_closes (b := .curly) (classParents_opens hc.parents) hc.matching).2
  | body _ hm _ => exact bound_of_isPunct (matching_closes (b := .curly) hm.opened hm.body).2
  | statement _ _ _ ih => exact ih

/-! Tokens that say nothing to a search. -/

theorem delimiter?_of_kind {kind : TokenKind} (h : ts.kind? i = some kind) (hcode : kind.isCode = false)
    (hclose : kind ≠ .closeTag) : ts.delimiter? i = none := by
  refine delimiter?_of_not_isCode ?_ fun hc => hclose (Option.some.inj (h.symm.trans hc))
  rw [isCode, h, Option.any_some, hcode]

theorem delimiter?_of_semicolon (h : ts.isPunct i ';' = true) : ts.delimiter? i = some .semicolon := by
  rw [delimiter?, isPunct_iff.1 h]
  rfl

theorem statementEndFrom_skip {stack : List (Bracket × Nat)} (hij : i ≤ j) (hj : j ≤ stop)
    (hd : ∀ k, i ≤ k → k < j → ts.delimiter? k = none) :
    ts.statementEndFrom first stop block stack i = ts.statementEndFrom first stop block stack j := by
  induction hij with
  | refl => rfl
  | @step j hij ih =>
    rw [ih (by omega) fun k hk hkj => hd k hk (by omega), statementEndFrom.eq_def, if_pos (by omega),
      hd j hij (Nat.lt_succ_self j)]

theorem matchingFrom_skip {opened : Bracket} {stack : List (Bracket × Nat)} (hij : i ≤ j)
    (hj : j ≤ stop) (hd : ∀ k, i ≤ k → k < j → ts.NoBracket k) :
    ts.matchingFrom opened first stop stack i = ts.matchingFrom opened first stop stack j := by
  induction hij with
  | refl => rfl
  | @step j hij ih =>
    rw [ih (by omega) fun k hk hkj => hd k hk (by omega), matchingFrom, if_pos (by omega)]
    have hno := hd j hij (Nat.lt_succ_self j)
    split
    · exact absurd ‹_› (hno _).1
    · exact absurd ‹_› (hno _).2
    · rfl

theorem Items.skip {ns : List Node} {last : Nat} (h : ts.Items p stop i ns last)
    (hhalts : ts.Halts p last stop) (hij : i ≤ j) (hj : j ≤ stop) (hl : ts.Loose i j)
    (hstop : ts.Bound stop) : ∃ mid, last ≤ mid ∧ mid ≤ stop ∧ j ≤ mid ∧ ts.Loose last mid ∧
      ts.Items p stop j ns mid ∧ ts.Halts p mid stop := by
  have hsig := significant_of_skip hij hj hl.plain
  cases h with
  | nil =>
    refine ⟨j, hij, hj, Nat.le_refl j, hl, .nil, ?_⟩
    unfold Halts at hhalts ⊢
    rwa [← hsig]
  | @cons _ r ns _ hs he h =>
    have hlead : ts.leading i (ts.significant i stop) = ts.leading j (ts.significant i stop) := by
      refine leading_of_skip hij ?_ fun k hk hkj => (hl k hk hkj).2
      rw [hsig]
      exact le_significant hj
    have hitems : ts.Items p stop j _ last :=
      .cons (by rw [← hsig]; exact hs) (by rw [← hsig, ← hlead]; exact he) h
    exact ⟨last, Nat.le_refl _, hitems.le_stop hj hstop.le_size (hstop.not_isPunct (by decide)),
      hitems.le, fun k hk hkl => absurd hkl (Nat.not_lt_of_le hk), hitems, hhalts⟩

theorem Split.skip {sts : List Text} (h : ts.Split stop i sts) (hij : i ≤ j) (hj : j ≤ stop)
    (hl : ts.Loose i j) : ts.Split stop j sts := by
  have hsig := significant_of_skip hij hj hl.plain
  have hlead : ts.leading i (ts.significant i stop) = ts.leading j (ts.significant j stop) := by
    rw [hsig]
    exact leading_of_skip hij (le_significant hj) fun k hk hkj => (hl k hk hkj).2
  cases h with
  | nil hs ht => exact .nil (hsig ▸ hs) (hlead ▸ ht)
  | notes hs ht => rw [hlead]; exact .notes (hsig ▸ hs) (hlead ▸ ht)
  | cons hs ha he hrest => rw [hlead]; exact .cons (hsig ▸ hs) (hsig ▸ ha) (hsig ▸ he) hrest

theorem lt_shift {lo : Nat} (h : lo < stop) (lo' : Nat) : lo' < shift lo lo' stop := by
  unfold shift
  omega

/-! The semicolon. -/

/-- The semicolon at `k` stands behind the code at `f` that the parser does not look beyond, and in
front of the close tag at `e`. The tokens `P` are those in front of the semicolon and of the white
space around it, and `M` is the white space that takes its place. -/
structure Elides (ts : Tokens) (P M : List Token) (f k e : Nat) : Prop where
  firm : ts.Firm f
  brace : ts.isPunct f '\x7d' = false
  lt : f < k
  semicolon : ts.isPunct k ';' = true
  le : P.length ≤ k
  lt_tag : k < e
  front : ∀ j, j < P.length → P[j]? = ts[j]?
  white : ∀ j, P.length ≤ j → j < e → j ≠ k → ts.kind? j = some .whitespace
  tag : ts.kind? e = some .closeTag
  behind : ts.kind? (e + 1) ≠ some .whitespace ∧ ts.kind? (e + 1) ≠ some .lineComment
  blank : ∀ t ∈ M, t.kind = .whitespace

namespace Elides

variable {P M : List Token} {f e : Nat}

/-- What stands behind is read as before. -/
theorem copy_back (_ : ts.Elides P M f k e) (hs : e ≤ stop) (hhash : ts.isPunct stop '#' = false) :
    Copy ts (ts.exchange P M e) e (P.length + M.length) (stop + 1) stop
      (shift e (P.length + M.length) stop) := Tokens.copy_back hs hhash

theorem kind?_back (_ : ts.Elides P M f k e) (hj : e ≤ j) :
    (ts.exchange P M e).kind? (shift e (P.length + M.length) j) = ts.kind? j := Exchanges.kind?_back hj

variable (h : ts.Elides P M f k e)
include h

theorem firm_lt : f < P.length := by
  by_contra hlt
  have hwhite := h.white f (by omega) (Nat.lt_trans h.lt h.lt_tag) (Nat.ne_of_lt h.lt)
  have hcode := h.firm.code
  rw [isCode, hwhite] at hcode
  cases hcode

theorem exchanges : ts.Exchanges P M e where
  front j hj := by rw [h.front j hj]; rfl
  le := Nat.le_of_lt (Nat.lt_of_le_of_lt h.le h.lt_tag)
  size := Nat.le_of_lt (lt_size_of_kind? h.tag)
  code j hj hje t ht := by
    by_cases hjk : j = k
    · subst hjk
      rw [isPunct_iff.1 h.semicolon] at ht
      cases ht
      rfl
    · have hwhite := h.white j hj hje hjk
      rw [kind?, ht] at hwhite
      rw [Option.some.inj hwhite]
      rfl
  inside t ht := by rw [h.blank t ht]; rfl

/-- What stands in front is read as before, up to the code that the parser does not look beyond. -/
theorem copy (hs : e ≤ stop) : Copy ts (ts.exchange P M e) 0 0 (f + 1) stop
    (shift e (P.length + M.length) stop) := by
  have hf := h.firm_lt
  have hle := h.exchanges.le
  refine .of_equal (.wall (Nat.succ_pos f) h.firm (by omega) ?_) (fun hb _ => ?_) fun j _ hj => ?_
  · rw [shift_zero]
    unfold shift
    omega
  · rw [Nat.add_sub_cancel, h.brace] at hb
    cases hb
  · rw [shift_zero, exchange_front (by omega), h.front j (by omega)]

theorem kind?_middle (hj : P.length ≤ j) (hjd : j < P.length + M.length) :
    (ts.exchange P M e).kind? j = some .whitespace := by
  obtain ⟨t, ht, hget⟩ : ∃ t ∈ M, (ts.exchange P M e)[j]? = some t := exchange_middle hj hjd
  rw [kind?, hget, Option.map_some, h.blank t ht]

theorem kind?_tag : (ts.exchange P M e).kind? (P.length + M.length) = some .closeTag := by
  rw [← h.tag, ← h.kind?_back (Nat.le_refl e), shift_self]

theorem loose : ts.Loose (k + 1) (e + 1) := by
  intro j hj hje
  have hkind : ts.kind? j = some .whitespace ∨ ts.kind? j = some .closeTag := by
    rcases Nat.lt_or_eq_of_le (Nat.le_of_lt_succ hje) with hlt | rfl
    · exact .inl (h.white j (Nat.le_trans h.le (by omega)) hlt (by omega))
    · exact .inr h.tag
  rw [isCode, isComment]
  rcases hkind with hk | hk <;> rw [hk] <;> exact ⟨rfl, rfl⟩

theorem delimiter?_front (hj : j < P.length) : (ts.exchange P M e).delimiter? j = ts.delimiter? j := by
  rw [delimiter?, delimiter?, exchange_front hj, h.front j hj]

theorem delimiter?_white (hj : P.length ≤ j) (hje : j < e) (hjk : j ≠ k) : ts.delimiter? j = none :=
  delimiter?_of_kind (h.white j hj hje hjk) rfl (by decide)

theorem delimiter?_middle (hj : P.length ≤ j) (hjd : j < P.length + M.length) :
    (ts.exchange P M e).delimiter? j = none :=
  delimiter?_of_kind (h.kind?_middle hj hjd) rfl (by decide)

/-- What carries a block on stands in front of the semicolon. -/
theorem continues (hi : i ≤ P.length) (hs : e < stop) (hc : ts.continues i stop = true) :
    (ts.exchange P M e).continues i (shift e (P.length + M.length) stop) = true := by
  obtain ⟨hlt, hword⟩ := Bool.and_eq_true_iff.1 hc
  have hlt := of_decide_eq_true hlt
  have hle : ts.significant i stop ≤ k :=
    firstFrom_lt (Nat.le_trans hi h.le) (isCode_of_isPunct h.semicolon)
  have hge : i ≤ ts.significant i stop := le_firstFrom_of_lt hlt
  have hcode := isCode_significant hlt
  have hfront : ts.significant i stop < P.length := by
    by_contra hno
    have hk : ts.significant i stop ≠ k := by
      intro heq
      rw [heq, not_isOneOf_of_isPunct h.semicolon] at hword
      cases hword
    rw [isCode, h.white _ (by omega) (by have := h.lt_tag; omega) hk] at hcode
    cases hcode
  have halike : ∀ j, j < P.length → (ts.exchange P M e).isCode j = ts.isCode j := fun j hj => by
    rw [isCode, isCode, h.exchanges.kind?_front hj]
  have hend := lt_shift hs (P.length + M.length)
  have hsig : (ts.exchange P M e).significant i (shift e (P.length + M.length) stop) =
      ts.significant i stop :=
    firstFrom_eq hge (by omega)
      (fun j hj hjs => (halike j (by omega)).trans (ts.plain_significant i stop j hj hjs))
      fun _ => (halike _ hfront).trans hcode
  have hget : Alike ts (ts.exchange P M e) (ts.significant i stop) (ts.significant i stop) :=
    .of_eq ((exchange_front hfront).trans (h.front _ hfront))
  rw [Tokens.continues, hsig, hget.isOneOf_eq]
  exact Bool.and_eq_true_iff.2 ⟨decide_eq_true (by omega), hword⟩

/-- The close tag ends the statement that the semicolon ended. -/
theorem statementEndFrom {first' : Nat} {stack stack' : List (Bracket × Nat)}
    (he : ts.statementEndFrom first stop block stack i = .ok (k + 1)) (hi : i ≤ P.length)
    (hs : e < stop) (hst : stack'.map Prod.fst = stack.map Prod.fst) :
    (ts.exchange P M e).statementEndFrom first' (shift e (P.length + M.length) stop) block stack' i =
      .ok (P.length + M.length + 1) := by
  have hle := h.le
  have htag := h.lt_tag
  have hend := lt_shift hs (P.length + M.length)
  induction hn : P.length - i generalizing i stack stack' with
  | zero =>
    obtain rfl : i = P.length := by omega
    rw [statementEndFrom_skip hle (by omega)
      fun j hj hjk => h.delimiter?_white hj (by omega) (Nat.ne_of_lt hjk),
      statementEndFrom.eq_def, if_pos (by omega), delimiter?_of_semicolon h.semicolon] at he
    rw [statementEndFrom_skip (Nat.le_add_right _ M.length) (by omega)
      fun j hj hjd => h.delimiter?_middle hj hjd, statementEndFrom.eq_def, if_pos hend,
      delimiter?_of_closeTag h.kind?_tag]
    dsimp only at he ⊢
    rw [Window.isEmpty_congr hst]
    split at he
    · rw [if_pos ‹_›]
    · have := (statementEndFrom_bounds he).1
      omega
  | succ n ih =>
    have hbounds := statementEndFrom_bounds he
    rw [statementEndFrom.eq_def, if_pos (by omega)] at he ⊢
    rw [h.delimiter?_front (by omega)]
    cases hd : ts.delimiter? i with
    | none =>
      rw [hd] at he
      exact ih he (by omega) hst (by omega)
    | some d =>
      rw [hd] at he
      cases d with
      | opening b => exact ih he (by omega) (by simp [hst]) (by omega)
      | closing b =>
        dsimp only at he ⊢
        cases hc : ts.close stack b i with
        | error e =>
          rw [hc] at he
          cases he
        | ok rest =>
          rw [hc] at he
          obtain ⟨rest', hc', hr⟩ := Window.close_congr (ts.exchange P M e) i hc hst
          rw [hc']
          dsimp only at he ⊢
          split at he
          · cases he
            omega
          · rename_i hgo
            rw [if_neg]
            · exact ih he (by omega) hr (by omega)
            · rintro ⟨hb, hblock, hempty, hno⟩
              refine hgo ⟨hb, hblock, Window.isEmpty_congr hr ▸ hempty, ?_⟩
              cases hc : ts.continues (i + 1) stop with
              | false => rfl
              | true =>
                rw [h.continues (by omega) hs hc] at hno
                cases hno
      | semicolon =>
        dsimp only at he ⊢
        rw [Window.isEmpty_congr hst]
        split at he
        · cases he
          omega
        · rw [if_neg ‹_›]
          exact ih he (by omega) hst (by omega)

theorem statementEnd (he : ts.statementEnd i stop block = .ok (k + 1)) (hi : i ≤ P.length)
    (hs : e < stop) : (ts.exchange P M e).statementEnd i (shift e (P.length + M.length) stop) block =
      .ok (P.length + M.length + 1) :=
  h.statementEndFrom he hi hs rfl

/-- A bracket in front is closed behind as before. -/
theorem matchingFrom {opened : Bracket} {first' : Nat} {stack stack' : List (Bracket × Nat)}
    (hm : ts.matchingFrom opened first stop stack i = .ok n) (hi : i ≤ P.length) (hn : e ≤ n)
    (hstop : ts.Bound stop) (hst : stack'.map Prod.fst = stack.map Prod.fst) :
    (ts.exchange P M e).matchingFrom opened first' (shift e (P.length + M.length) stop) stack' i =
      .ok (shift e (P.length + M.length) n) := by
  have hle := h.le
  have htag := h.lt_tag
  have hns := (matchingFrom_bounds hm).2
  have hend := lt_shift (show e < stop by omega) (P.length + M.length)
  induction hl : P.length - i generalizing i stack stack' with
  | zero =>
    obtain rfl : i = P.length := by omega
    have hback := h.copy_back (show e ≤ stop by omega)
      (hstop.not_isPunct (by decide))
    rw [matchingFrom_skip (show P.length ≤ e by omega) (by omega) fun j hj hje b => ?_] at hm
    · rw [matchingFrom_skip (Nat.le_add_right _ M.length) (Nat.le_of_lt hend) fun j hj hjd b => ?_]
      · have := hback.toWindow.matchingFrom hm hst (Nat.le_refl e) (by omega) first'
        rwa [shift_self] at this
      · rw [h.delimiter?_middle hj hjd]
        exact ⟨by rintro ⟨⟩, by rintro ⟨⟩⟩
    · by_cases hjk : j = k
      · rw [hjk, delimiter?_of_semicolon h.semicolon]
        exact ⟨by rintro ⟨⟩, by rintro ⟨⟩⟩
      · rw [h.delimiter?_white hj hje hjk]
        exact ⟨by rintro ⟨⟩, by rintro ⟨⟩⟩
  | succ l ih =>
    rw [Tokens.matchingFrom, if_pos (by omega)] at hm ⊢
    rw [h.delimiter?_front (by omega)]
    split at hm
    · exact ih hm (by omega) (by simp [hst]) (by omega)
    · cases hc : ts.close stack _ i with
      | error e =>
        rw [hc] at hm
        cases hm
      | ok rest =>
        rw [hc] at hm
        obtain ⟨rest', hc', hr⟩ := Window.close_congr (ts.exchange P M e) i hc hst
        rw [hc']
        dsimp only at hm ⊢
        rw [Window.isEmpty_congr hr]
        split at hm
        · cases hm
          omega
        · rw [if_neg ‹_›]
          exact ih hm (by omega) hr (by omega)
    · exact ih hm (by omega) hst (by omega)

theorem matching {b : Bracket} (hm : ts.matching b i stop = .ok n) (hi : i ≤ P.length) (hn : e ≤ n)
    (hstop : ts.Bound stop) :
    (ts.exchange P M e).matching b i (shift e (P.length + M.length) stop) =
      .ok (shift e (P.length + M.length) n) :=
  h.matchingFrom hm hi hn hstop rfl

end Elides

theorem lt_of_isNamespace (h : ts.isNamespace i stop = true) : i < stop ∧ i < (ts.scopeHead i stop).2 := by
  obtain ⟨hlt, -⟩ := Bool.and_eq_true_iff.1 h
  have hlt := of_decide_eq_true (Bool.and_eq_true_iff.1 hlt).2
  have := ts.min_le_significant (i + 1) stop
  have hs : i < stop := by omega
  exact ⟨hs, lt_scopeHead hs⟩

theorem ClassAt.of_declaration {c : ClassStart} {bases interfaces : List Text}
    {start opening closing : Nat} {r : Node × Nat}
    (h : ts.ClassAt first stop c bases interfaces opening closing)
    (hr : ts.declaration start first stop = .ok r) :
    ∃ children, ts.members (opening + 1) closing = .ok children ∧
      r = ts.classNode start stop c bases interfaces opening closing children := by
  rw [declaration, if_neg (Bool.eq_false_iff.1 h.use), h.starts] at hr
  simp only [classDecl, h.parents, h.matching] at hr
  cases hm : ts.members (opening + 1) closing with
  | error e =>
    rw [hm] at hr
    cases hr
  | ok children =>
    rw [hm] at hr
    cases hr
    exact ⟨children, rfl, rfl⟩

/-- The method with the given statements. -/
def methodNode (ts : Tokens) (start first stop head closing last : Nat) (sts : List Text) :
    Node × Nat :=
  let words := (ts.modifiers memberModifiers head stop).1
  let name := ts.methodName (ts.functionAt head stop) stop
  let decl : Method :=
    { visibility? := words.findSome? Visibility.ofWord?
      modifiers := words.filter fun m => (Visibility.ofWord? m).isNone
      byRef := name.1
      name := ts.text name.2
      params := (ts.between (ts.parametersAt head stop + 1) closing).trim
      returnType? := (ts.returnType (ts.significant (closing + 1) stop) stop).1
      body? := some sts
      doc? := ts.lastDoc? start first }
  (.ofSource (.method decl) ⟨start, last + 1⟩ none [], last + 1)

section

variable {start head closing last : Nat}

theorem MethodAt.lt (h : ts.MethodAt first stop head closing last) :
    first ≤ head ∧ head ≤ ts.functionAt head stop ∧
      ts.functionAt head stop ≤ (ts.methodName (ts.functionAt head stop) stop).2 ∧
      (ts.methodName (ts.functionAt head stop) stop).2 < ts.parametersAt head stop ∧
      ts.parametersAt head stop ≤ closing ∧ closing < ts.bodyAt closing stop ∧
      ts.bodyAt closing stop ≤ last ∧ last < stop := by
  have hattr := le_of_skipAttributes h.attributes
  have hmods : head ≤ ts.functionAt head stop := ts.le_of_modifiers memberModifiers head stop
  have hparams := matching_bounds h.parameters
  have hbody := matching_bounds h.body
  have hname := ts.min_le_methodName (ts.functionAt head stop) stop
  have hopening : min ((ts.methodName (ts.functionAt head stop) stop).2 + 1) stop ≤
      ts.parametersAt head stop := ts.min_le_significant ..
  have htype : min (ts.significant (closing + 1) stop) stop ≤ ts.bodyAt closing stop :=
    ts.min_le_returnType ..
  have hbehind := ts.min_le_significant (closing + 1) stop
  omega

/-- Only the statements are left to be read. -/
theorem MethodAt.member_eq (h : ts.MethodAt first stop head closing last) :
    ts.member start first stop = (ts.statements (ts.bodyAt closing stop + 1) last).map
      (ts.methodNode start first stop head closing last) := by
  have hkey := h.keyword
  have hname := h.name
  have hround := h.parenthesis
  have hparams := h.parameters
  have hopened := h.opened
  have hbody := h.body
  unfold functionAt at hkey hname
  unfold parametersAt functionAt at hround hparams
  unfold bodyAt at hopened hbody
  rw [member, h.attributes]
  dsimp only
  rw [if_pos hkey, method]
  dsimp only
  rw [hname, hround, hparams]
  dsimp only
  rw [methodBody, if_pos hopened, hbody]
  dsimp only
  unfold bodyAt
  cases ts.statements ((ts.returnType (ts.significant (closing + 1) stop) stop).2 + 1) last <;> rfl

/-- A method is read as before up to its brace. -/
theorem MethodAt.copy {us : Tokens} {hi stop' last' : Nat}
    (h : ts.MethodAt first stop head closing last) (C : Copy ts us 0 0 hi stop stop')
    (hhi : ts.bodyAt closing stop < hi)
    (hm : us.matching .curly (ts.bodyAt closing stop) stop' = .ok last') :
    us.MethodAt first stop' head closing last' ∧ us.bodyAt closing stop' = ts.bodyAt closing stop ∧
      ∀ start, start ≤ first → ∀ sts, (us.methodNode start first stop' head closing last' sts).1.decl =
        (ts.methodNode start first stop head closing last sts).1.decl := by
  obtain ⟨hattr, hmods, hname, hopening, hparams, hclosing, hbody, hlast⟩ := h.lt
  have ha := (C.toWindow.skipAttributes h.attributes (Nat.zero_le _) (by omega) (by omega) (by omega)).1
  have hwords := (C.toWindow.modifiers memberModifiers_subset (Nat.zero_le head)
    (show head < hi by omega)).1
  have hkey := (C.alike (ts.functionAt head stop) (Nat.zero_le _) (by omega)).isKeyword_eq "function"
  obtain ⟨hn, -, -, -⟩ := C.methodName (Nat.zero_le (ts.functionAt head stop)) (by omega) (by omega)
    fun _ => by omega
  have hisName := (C.alike (ts.methodName (ts.functionAt head stop) stop).2 (Nat.zero_le _)
    (by omega)).isName_eq
  obtain ⟨ho, -, -⟩ := C.toWindow.next (fun _ => by omega)
    (Nat.zero_le (ts.methodName (ts.functionAt head stop) stop).2) (by omega) (by omega)
  have hround := (C.alike (ts.parametersAt head stop) (Nat.zero_le _) (by omega)).isPunct_eq '('
  have hmatch := C.toWindow.matching h.parameters (Nat.zero_le _) (show closing < hi by omega)
  obtain ⟨hb, -, hbhi⟩ := C.toWindow.next (fun _ => by omega) (Nat.zero_le closing) (by omega)
    (by omega)
  obtain ⟨ht, -⟩ := C.returnType (Nat.zero_le (ts.significant (closing + 1) stop)) hbhi hhi
  have hopened := (C.alike (ts.bodyAt closing stop) (Nat.zero_le _) hhi).isPunct_eq '\x7b'
  have htext := C.text_eq (Nat.zero_le (ts.methodName (ts.functionAt head stop) stop).2) (by omega)
  have hbetween := C.between_eq (Nat.zero_le (ts.parametersAt head stop + 1))
    (show closing ≤ hi by omega)
  simp only [shift_zero] at ha hwords hkey hn hisName ho hround hmatch hb ht hopened htext hbetween
  have hfunction : us.functionAt head stop' = ts.functionAt head stop := by
    rw [functionAt, hwords]
    rfl
  have hparameters : us.parametersAt head stop' = ts.parametersAt head stop := by
    rw [parametersAt, hfunction, hn]
    exact ho
  have hbodyAt : us.bodyAt closing stop' = ts.bodyAt closing stop := by
    rw [bodyAt, hb, ht]
    rfl
  refine ⟨⟨ha, ?_, ?_, ?_, ?_, ?_, ?_⟩, hbodyAt, fun start hstart sts => ?_⟩
  · rw [hfunction, hkey, h.keyword]
  · rw [hfunction, hn]
    exact hisName.trans h.name
  · rw [hparameters, hround, h.parenthesis]
  · rw [hparameters, hmatch]
  · rw [hbodyAt, hopened, h.opened]
  · rw [hbodyAt, hm]
  · have hdoc := C.lastDoc? (Nat.zero_le start) (show first ≤ hi by omega)
    simp only [shift_zero] at hdoc
    simp only [methodNode, Node.ofSource, hwords, hfunction, hn, hparameters, hb, ht, htext, hbetween,
      hdoc]

end

theorem closingComments_of_loose (hij : i ≤ j) (hj : j ≤ stop) (hl : ts.Loose i j) :
    ts.closingComments j stop = ts.closingComments i stop := by
  have hlead : ts.leading i stop = ts.leading j stop :=
    leading_of_skip hij hj fun k hk hkj => (hl k hk hkj).2
  rw [closingComments, closingComments, hlead]

theorem not_isBlock_use (h : ts.isKeyword i "use" = true) : ts.isBlock i = false := by
  obtain ⟨hname, htext⟩ := Bool.and_eq_true_iff.1 h
  refine Bool.or_eq_false_iff.2 ⟨Bool.eq_false_iff.2 fun hp => ?_, List.any_eq_false.2 fun w hw hk => ?_⟩
  · rw [isName, kind?, isPunct_iff.1 hp] at hname
    cases hname
  · have hword := (beq_iff_eq.1 htext).symm.trans (beq_iff_eq.1 (Bool.and_eq_true_iff.1 hk).2)
    subst hword
    revert hw
    decide

/-- What is neither a namespace nor a class is an import or kept as it stands. -/
theorem declaration_of_statement {head : Nat} (hclass : (ts.classStart? first stop).isNone = true)
    (ha : ts.skipAttributes first stop = .ok head)
    (he : ts.statementEnd first stop (ts.isBlock head) = .ok n) (start : Nat) :
    ∃ m, ts.declaration start first stop = .ok (m, n) ∧ m.decl.isScope = false ∧
      m.sketch = ⟨0, .synthesized, .verbatim [], []⟩ := by
  have hverbatim : ∀ block, ts.statementEnd first stop block = .ok n →
      ts.verbatim start first stop block =
        .ok (.ofSource (.verbatim (ts.between first n)) ⟨start, n⟩ none [], n) := by
    intro block he
    rw [verbatim, he]
  rw [declaration]
  split
  · rename_i huse
    rw [skipAttributes_of_isKeyword huse] at ha
    cases ha
    rw [not_isBlock_use huse] at he
    rw [importDecl, he]
    dsimp only
    split
    · exact ⟨_, rfl, rfl, rfl⟩
    · exact ⟨_, hverbatim false he, rfl, rfl⟩
  · rw [Option.isNone_iff_eq_none.1 hclass, ha]
    exact ⟨_, hverbatim _ he, rfl, rfl⟩

/-- A statement that is read at `i`: where its attributes end, and where it ends itself. -/
structure StatementAt (ts : Tokens) (l : Series) (stop i head n : Nat) : Prop where
  attributes : ts.skipAttributes (ts.significant i stop) stop = .ok head
  ends : ts.statementEnd (ts.significant i stop) stop (ts.isBlock head) = .ok n
  /-- In a list of declarations it is none. -/
  other : ∀ p, l = .entries p → p ≠ .members ∧ ts.isNamespace (ts.significant i stop) stop = false ∧
    (ts.classStart? (ts.significant i stop) stop).isNone = true

theorem settles_of_skipAttributes {hi : Nat} (h : ts.skipAttributes i stop = .ok j) (hj : j < hi) :
    ts.Settles i stop hi := by
  intro j' h'
  rw [h] at h'
  cases h'
  exact hj

theorem settles_of_isNamespace {hi : Nat} (h : ts.isNamespace i stop = true) (hi' : i < hi) :
    ts.Settles i stop hi :=
  settles_of_isKeyword (Bool.and_eq_true_iff.1 (Bool.and_eq_true_iff.1 h).1).1 hi'

/-! What is read alike. -/

variable {P M : List Token} {f e : Nat} {r r' : Node × Nat}

/-- What is read without the semicolon is what was read, but for the texts of statements: the
entries from `i` on, or how many statements there are. -/
def Keeps (ts : Tokens) (P M : List Token) (e : Nat) : Series → Nat → Nat → Prop
  | .entries p, stop, i => ∀ ns last, ts.Items p stop i ns last → ts.Halts p last stop →
    ∃ ms mid, last ≤ mid ∧ mid ≤ stop ∧ e ≤ mid ∧ ts.Loose last mid ∧
      (ts.exchange P M e).Items p (shift e (P.length + M.length) stop) i ms
        (shift e (P.length + M.length) mid) ∧
      (ts.exchange P M e).Halts p (shift e (P.length + M.length) mid)
        (shift e (P.length + M.length) stop) ∧
      ms.map Node.sketch = ns.map Node.sketch
  | .statements, stop, i => ∀ sts, ts.Split stop i sts →
    ∃ sts', (ts.exchange P M e).Split (shift e (P.length + M.length) stop) i sts' ∧
      sts'.length = sts.length

/-- An entry and what is read in its place; reading goes on at `mid`. -/
structure Twin (ts : Tokens) (P M : List Token) (e stop mid : Nat) (r r' : Node × Nat) : Prop where
  sketch : r'.1.sketch = r.1.sketch
  le : (ts.finish stop r).2 ≤ mid
  le_stop : mid ≤ stop
  tag_le : e ≤ mid
  loose : ts.Loose (ts.finish stop r).2 mid
  next : ((ts.exchange P M e).finish (shift e (P.length + M.length) stop) r').2 =
    shift e (P.length + M.length) mid

theorem Loose.refl (ts : Tokens) (i : Nat) : ts.Loose i i :=
  fun _ hi hk => absurd hk (Nat.not_lt_of_le hi)

/-- An entry that ends behind the close tag. -/
theorem Twin.of_behind (hstop : ts.Bound stop) (hsk : r'.1.sketch = r.1.sketch) (he : e ≤ r.2)
    (hr : r.2 ≤ stop) (hr' : r'.2 = shift e (P.length + M.length) r.2) :
    ts.Twin P M e stop (ts.finish stop r).2 r r' := by
  have hle := ts.le_finish stop r
  have hscope : r'.1.decl.isScope = r.1.decl.isScope := by
    have hdecl := congrArg Node.decl hsk
    rw [Node.sketch_eq, Node.sketch_eq] at hdecl
    generalize r'.1.decl = d at hdecl
    generalize r.1.decl = d' at hdecl
    cases d <;> cases d' <;> first | rfl | cases hdecl
  refine ⟨hsk, Nat.le_refl _, ?_, Nat.le_trans he hle, Loose.refl ts _, ?_⟩
  · unfold finish
    split
    · exact hr
    · rw [withTrailing_snd]
      exact trailing_le hr
  · unfold finish
    rw [hscope]
    split
    · exact hr'
    · have hback : Copy ts (ts.exchange P M e) e (P.length + M.length) (stop + 1) stop _ :=
        Tokens.copy_back (Nat.le_trans he hr) (hstop.not_isPunct (by decide))
      rw [withTrailing_snd, withTrailing_snd, hr']
      exact (hback.toWindow.trailing he (Nat.lt_succ_of_le hr)).1

namespace Elides

variable (h : ts.Elides P M f k e)
include h

/-- A list whose first entry has its twin. -/
theorem keeps_entry (hstop : ts.Bound stop) (hs : ts.significant i stop < stop)
    (hf : ts.significant i stop ≤ f) (he : e < stop)
    (hno : p = .scope false → ts.isNamespace (ts.significant i stop) stop = false)
    (hr : ∀ r, ts.entry p (ts.leading i (ts.significant i stop)) (ts.significant i stop) stop = .ok r →
      ∃ r' mid, (ts.exchange P M e).entry p (ts.leading i (ts.significant i stop))
        (ts.significant i stop) (shift e (P.length + M.length) stop) = .ok r' ∧
          ts.Twin P M e stop mid r r') :
    ts.Keeps P M e (.entries p) stop i := by
  intro ns last hitems hhalts
  cases hitems with
  | nil =>
    obtain ⟨hp, hn⟩ := hhalts hs
    rw [hno hp] at hn
    cases hn
  | @cons _ r ns _ _ hentry hrest =>
    obtain ⟨r', mid, hentry', T⟩ := hr r hentry
    have C := h.copy (Nat.le_of_lt he)
    have hi : i ≤ ts.significant i stop := le_firstFrom_of_lt hs
    obtain ⟨hsig, -, -⟩ := C.toWindow.significant (Nat.zero_le i) (by omega)
    have hlead := C.toWindow.leading (i := i) (Nat.zero_le _) (Nat.lt_succ_of_le hf)
    have hlt := (C.lt_stop_iff (Nat.zero_le _) (Nat.lt_succ_of_le hf)).2 hs
    simp only [shift_zero] at hsig hlead hlt
    obtain ⟨last', h₁, h₂, h₃, hloose, hitems, hend⟩ := hrest.skip hhalts T.le T.le_stop T.loose hstop
    have hback := h.copy_back (Nat.le_of_lt he)
      (hstop.not_isPunct (z := '#') (by decide))
    have htag := T.tag_le
    have hitems' := hback.items hitems htag (Nat.lt_succ_of_le h₂) hstop.le_size
      (hback.settles_of_halts hend (by omega) (Nat.lt_succ_of_le h₂))
    rw [← T.next] at hitems'
    refine ⟨_, last', h₁, h₂, by omega, hloose,
      .cons (by rw [hsig]; exact hlt) (by rw [hsig, hlead]; exact hentry') hitems',
      hback.halts hend (by omega) (Nat.lt_succ_of_le h₂), ?_⟩
    rw [List.map_cons, List.map_cons, Node.map_sketch_of_bare (Node.map_bare_move _ _),
      Node.sketch_of_bare (bare_finish ..), Node.sketch_of_bare (bare_finish ..), T.sketch]

/-- An entry in front of the statement. -/
theorem keeps_next (hstop : ts.Bound stop) (hs : ts.significant i stop < stop) (he : e < stop)
    (hr : ts.entry p (ts.leading i (ts.significant i stop)) (ts.significant i stop) stop = .ok r)
    (hf : (ts.finish stop r).2 ≤ f)
    (hset : ts.Settles (ts.significant (ts.finish stop r).2 stop) stop (f + 1))
    (hK : ts.Keeps P M e (.entries p) stop (ts.finish stop r).2) :
    ts.Keeps P M e (.entries p) stop i := by
  intro ns last hitems hhalts
  cases hitems with
  | nil =>
    obtain ⟨rfl, hn⟩ := hhalts hs
    rw [entry, if_pos hn] at hr
    cases hr
  | @cons _ q ns _ _ hentry hrest =>
    rw [hr] at hentry
    cases hentry
    obtain ⟨ms, mid, h₁, h₂, h₃, hloose, hitems, hend, hsk⟩ := hK ns last hrest hhalts
    have hfront := (h.copy (Nat.le_of_lt he)).items (.cons hs hr .nil) (Nat.zero_le i)
      (Nat.lt_succ_of_le hf) hstop.le_size hset
    simp only [shift_zero] at hfront
    refine ⟨_, mid, h₁, h₂, h₃, hloose, hfront.append hitems, hend, ?_⟩
    rw [List.map_append, hsk, Node.map_sketch_of_bare (Node.map_bare_move _ _)]
    rfl

/-- A namespace is read as before up to its semicolon or its brace. -/
theorem scopeHead (he : e ≤ stop) (hn : ts.isNamespace i stop = true)
    (hf : (ts.scopeHead i stop).2 ≤ f) :
    (ts.exchange P M e).isNamespace i (shift e (P.length + M.length) stop) = true ∧
      (ts.exchange P M e).scopeHead i (shift e (P.length + M.length) stop) = ts.scopeHead i stop ∧
      ∀ c, (ts.exchange P M e).isPunct (ts.scopeHead i stop).2 c =
        ts.isPunct (ts.scopeHead i stop).2 c := by
  obtain ⟨hs, hlt⟩ := lt_of_isNamespace hn
  have C := h.copy he
  obtain ⟨hhead, -, -⟩ := C.scopeHead (Nat.zero_le i) (by omega) (Nat.le_of_lt hs)
    fun _ => Nat.lt_succ_of_le hf
  have hspace := C.isNamespace (Nat.zero_le i) (by omega) (Nat.le_of_lt hs)
  have hpunct := (C.alike _ (Nat.zero_le _) (Nat.lt_succ_of_le hf)).isPunct_eq
  simp only [shift_zero] at hhead hspace hpunct
  exact ⟨hspace.trans hn, hhead, hpunct⟩

/-- A namespace without braces whose declarations are kept. -/
theorem keeps_scope (hstop : ts.Bound stop) (he : e < stop)
    (hn : ts.isNamespace (ts.significant i stop) stop = true)
    (hname : (ts.scopeHead (ts.significant i stop) stop).1.isSome = true)
    (hsemi : ts.isPunct (ts.scopeHead (ts.significant i stop) stop).2 ';' = true)
    (hf : (ts.scopeHead (ts.significant i stop) stop).2 ≤ f)
    (hK : ts.Keeps P M e (.entries (.scope false)) stop
      ((ts.scopeHead (ts.significant i stop) stop).2 + 1)) :
    ts.Keeps P M e (.entries .file) stop i := by
  obtain ⟨hs, hlt⟩ := lt_of_isNamespace hn
  refine h.keeps_entry hstop hs (by omega) he (by rintro ⟨⟩) fun r hr => ?_
  rw [entry, if_pos hn] at hr
  obtain ⟨hn', hhead, hpunct⟩ := h.scopeHead (Nat.le_of_lt he) hn hf
  rcases namespaceDecl_cases hr with ⟨-, -, children, hd, hnode⟩ | ⟨hbrace, -⟩
  · obtain ⟨hitems, hhalts⟩ := items_of_declarations hd
    obtain ⟨ms, mid, h₁, h₂, h₃, hloose, hms, hend, hsk⟩ := hK children _ hitems hhalts
    have hscope : r.1.decl.isScope = true := isScope_of_namespaceDecl hr
    have hread : (ts.exchange P M e).namespaceDecl (ts.leading i (ts.significant i stop))
        (ts.significant i stop) (shift e (P.length + M.length) stop) = _ :=
      namespaceDecl_statement (by rw [hhead]; exact hname) (by rw [hhead, hpunct]; exact hsemi)
        (by rw [hhead]; exact declarations_of_items hms hend)
    refine ⟨_, mid, by rw [entry, if_pos hn']; exact hread, ?_, ?_, h₂, h₃, ?_, ?_⟩
    · rw [hnode, hhead, Node.sketch_eq, Node.sketch_eq]
      simp only [Node.ofSource, hsk]
    · rwa [finish_of_isScope hscope]
    · rwa [finish_of_isScope hscope]
    · rw [finish_of_isScope rfl]
  · rw [not_isPunct_of_ne hsemi (by decide)] at hbrace
    cases hbrace

/-- A namespace with braces whose declarations are kept. -/
theorem keeps_block {closing : Nat} (hstop : ts.Bound stop) (he : e < closing)
    (hn : ts.isNamespace (ts.significant i stop) stop = true)
    (hbrace : ts.isPunct (ts.scopeHead (ts.significant i stop) stop).2 '\x7b' = true)
    (hm : ts.matching .curly (ts.scopeHead (ts.significant i stop) stop).2 stop = .ok closing)
    (hf : (ts.scopeHead (ts.significant i stop) stop).2 ≤ f)
    (hK : ts.Keeps P M e (.entries (.scope true)) closing
      ((ts.scopeHead (ts.significant i stop) stop).2 + 1)) :
    ts.Keeps P M e (.entries .file) stop i := by
  obtain ⟨hs, hlt⟩ := lt_of_isNamespace hn
  have hclosing := (matching_bounds hm).2
  refine h.keeps_entry hstop hs (by omega) (by omega) (by rintro ⟨⟩) fun r hr => ?_
  rw [entry, if_pos hn] at hr
  obtain ⟨hn', hhead, hpunct⟩ := h.scopeHead (by omega) hn hf
  have hmatch := h.matching hm (by have := h.firm_lt; omega) (Nat.le_of_lt he) hstop
  rcases namespaceDecl_cases hr with ⟨-, hsemi, -⟩ | ⟨-, closing', children, last, hm', hd, rfl⟩
  · rw [not_isPunct_of_ne hbrace (by decide)] at hsemi
    cases hsemi
  · rw [hm] at hm'
    cases hm'
    obtain ⟨hitems, hhalts⟩ := items_of_declarations hd
    obtain ⟨ms, mid, -, -, -, -, hms, hend, hsk⟩ := hK children _ hitems hhalts
    have hread : (ts.exchange P M e).namespaceDecl (ts.leading i (ts.significant i stop))
        (ts.significant i stop) (shift e (P.length + M.length) stop) = _ :=
      namespaceDecl_block (by rw [hhead, hpunct]; exact hbrace) (by rw [hhead]; exact hmatch)
        (by rw [hhead]; exact declarations_of_items hms hend)
    refine ⟨_, _, by rw [entry, if_pos hn']; exact hread,
      Twin.of_behind hstop ?_ (Nat.le_succ_of_le (Nat.le_of_lt he)) hclosing
        (shift_succ (Nat.le_of_lt he)).symm⟩
    rw [hhead, Node.sketch_eq, Node.sketch_eq]
    simp only [Node.ofSource, hsk]

/-- A class whose members are kept. -/
theorem keeps_members {c : ClassStart} {bases interfaces : List Text} {opening closing : Nat}
    (hstop : ts.Bound stop) (he : e < closing) (hp : p ≠ .members)
    (hno : ts.isNamespace (ts.significant i stop) stop = false)
    (hc : ts.ClassAt (ts.significant i stop) stop c bases interfaces opening closing)
    (hf : opening ≤ f) (hK : ts.Keeps P M e (.entries .members) closing (opening + 1)) :
    ts.Keeps P M e (.entries p) stop i := by
  have hkey := hc.keyword_lt
  obtain ⟨hopening, hclosing⟩ := matching_bounds hc.matching
  obtain ⟨head, ha, hhead⟩ := hc.attributes
  have hattr := le_of_skipAttributes ha
  refine h.keeps_entry hstop (by omega) (by omega) (by omega) (fun _ => hno) fun r hr => ?_
  have C := h.copy (show e ≤ stop by omega)
  obtain ⟨hc', hname⟩ := hc.copy C (Nat.lt_succ_of_le hf) (by omega)
    (h.matching hc.matching (by have := h.firm_lt; omega) (Nat.le_of_lt he) hstop)
  have hspace := C.isNamespace (Nat.zero_le _) (show ts.significant i stop < f + 1 by omega)
    (show _ ≤ stop by omega)
  have htext := C.text_eq (Nat.zero_le _)
    (show ts.significant (c.keyword + 1) stop < f + 1 by omega)
  simp only [shift_zero] at hspace htext
  rw [entry_of_declaration hp hno] at hr
  obtain ⟨children, hm, rfl⟩ := hc.of_declaration hr
  obtain ⟨ns, last, rfl, hitems, hhalts⟩ := items_of_members hm
  obtain ⟨ms, mid, h₁, h₂, h₃, hloose, hms, hend, hsk⟩ := hK ns last hitems hhalts
  have hback := h.copy_back (Nat.le_of_lt he)
    (not_isPunct_of_ne (matching_closes (b := .curly) (classParents_opens hc.parents) hc.matching).2
      (show '\x7d' ≠ '#' by decide))
  have hread : (ts.exchange P M e).declaration (ts.leading i (ts.significant i stop)) _ _ = _ :=
    declaration_of_classAt hc' (members_of_items hms hend)
  rw [← entry_of_declaration hp (hspace.trans hno)] at hread
  refine ⟨_, _, hread, Twin.of_behind hstop ?_ (Nat.le_succ_of_le (Nat.le_of_lt he)) hclosing
    (shift_succ (Nat.le_of_lt he)).symm⟩
  rw [hback.closingComments h₃ (Nat.lt_succ_self closing), closingComments_of_loose h₁ h₂ hloose,
    Node.sketch_eq, Node.sketch_eq, classNode, classNode, hname, htext]
  simp only [Node.ofSource, List.map_append, hsk,
    Node.map_sketch_of_bare (Node.map_bare_move _ (ts.closingComments last closing))]

/-- A method whose statements are as many as before. -/
theorem keeps_body {head closing last : Nat} (hstop : ts.Bound stop) (he : e < last)
    (hm : ts.MethodAt (ts.significant i stop) stop head closing last)
    (hf : ts.bodyAt closing stop ≤ f)
    (hK : ts.Keeps P M e .statements last (ts.bodyAt closing stop + 1)) :
    ts.Keeps P M e (.entries .members) stop i := by
  obtain ⟨hattr, hmods, hname, hopening, hparams, hclosing, hbody, hlast⟩ := hm.lt
  refine h.keeps_entry hstop (by omega) (by omega) (by omega) (by rintro ⟨⟩) fun r hr => ?_
  have C := h.copy (show e ≤ stop by omega)
  obtain ⟨hm', hbodyAt, hdecl⟩ := hm.copy C (Nat.lt_succ_of_le hf)
    (h.matching hm.body (by have := h.firm_lt; omega) (Nat.le_of_lt he) hstop)
  rw [entry, hm.member_eq] at hr
  obtain ⟨sts, hs, rfl⟩ : ∃ sts, ts.statements (ts.bodyAt closing stop + 1) last = .ok sts ∧
      ts.methodNode (ts.leading i (ts.significant i stop)) (ts.significant i stop) stop head closing last
        sts = r := by
    cases hs : ts.statements (ts.bodyAt closing stop + 1) last with
    | error e =>
      rw [hs] at hr
      cases hr
    | ok sts =>
      rw [hs] at hr
      exact ⟨sts, rfl, Except.ok.inj hr⟩
  obtain ⟨sts', hsplit, hlen⟩ := hK sts (split_of_statements hs)
  have hs' := statements_of_split hsplit
  refine ⟨_, _, by rw [entry, hm'.member_eq, hbodyAt, hs']; rfl,
    Twin.of_behind hstop ?_ (Nat.le_succ_of_le (Nat.le_of_lt he)) hlast
      (shift_succ (Nat.le_of_lt he)).symm⟩
  rw [Node.sketch_eq, Node.sketch_eq, hdecl _ (ts.leading_le ..)]
  simp only [methodNode, Node.ofSource, Decl.sketch, Option.map_some, List.map_const', hlen]

/-- What starts a statement, up to the code that the parser does not look beyond. -/
theorem keeps_head {head : Nat} (he : e < stop) (hs : ts.significant i stop < stop)
    (ha : ts.skipAttributes (ts.significant i stop) stop = .ok head) (hhead : head ≤ f) :
    (ts.exchange P M e).significant i (shift e (P.length + M.length) stop) = ts.significant i stop ∧
      (ts.exchange P M e).skipAttributes (ts.significant i stop)
        (shift e (P.length + M.length) stop) = .ok head ∧
      (ts.exchange P M e).isBlock head = ts.isBlock head := by
  have W := (h.copy (Nat.le_of_lt he)).toWindow
  have hi : i ≤ ts.significant i stop := le_firstFrom_of_lt hs
  have hattr := le_of_skipAttributes ha
  obtain ⟨hsig, -, -⟩ := W.significant (Nat.zero_le i) (by omega)
  obtain ⟨ha', -⟩ := W.skipAttributes ha (Nat.zero_le _) (by omega) (Nat.le_of_lt hs)
    (Nat.lt_succ_of_le hhead)
  have hblock := (W.alike head (Nat.zero_le _) (Nat.lt_succ_of_le hhead)).isBlock_eq
  simp only [shift_zero] at hsig ha' hblock
  exact ⟨hsig, ha', hblock⟩

/-- A statement in front. -/
theorem keeps_statement {head next : Nat} (he : e < stop)
    (ha : ts.skipAttributes (ts.significant i stop) stop = .ok head) (hhead : head ≤ f)
    (hend : ts.statementEnd (ts.significant i stop) stop (ts.isBlock head) = .ok next)
    (hf : ts.trailing next stop ≤ f) (hK : ts.Keeps P M e .statements stop (ts.trailing next stop)) :
    ts.Keeps P M e .statements stop i := by
  intro sts hsts
  have hbounds := statementEnd_bounds hend
  have hs : ts.significant i stop < stop := by omega
  have hi : i ≤ ts.significant i stop := le_firstFrom_of_lt hs
  have htrail := ts.le_trailing next stop
  cases hsts with
  | nil hno => exact absurd hs hno
  | notes hno => exact absurd hs hno
  | @cons _ head' next' rest _ ha' hend' hrest =>
    rw [ha] at ha'
    cases ha'
    rw [hend] at hend'
    cases hend'
    obtain ⟨sts', hsplit, hlen⟩ := hK rest hrest
    have W := (h.copy (Nat.le_of_lt he)).toWindow
    obtain ⟨hsig, ha', hblock⟩ := h.keeps_head he hs ha hhead
    have hend' := W.statementEnd hend (Nat.zero_le _) (by omega)
    have hnext := (W.trailing (Nat.zero_le next) (by omega)).1
    have hlt := (W.lt_stop_iff (Nat.zero_le _) (show ts.significant i stop < f + 1 by omega)).2 hs
    simp only [shift_zero] at hend' hnext hlt
    refine ⟨_, .cons (by rw [hsig]; exact hlt) (by rw [hsig]; exact ha')
      (by rw [hsig, hblock]; exact hend') (by rw [hnext]; exact hsplit), ?_⟩
    rw [List.length_cons, List.length_cons, hlen]

/-! The statement itself. -/

theorem trailing_semicolon (stop : Nat) : ts.trailing (k + 1) stop = k + 1 := by
  have hle := h.le
  have htag := h.lt_tag
  have hkind : ∀ j, k < j → j ≤ e → ts.kind? j = some .whitespace ∨ ts.kind? j = some .closeTag := by
    intro j hj hje
    rcases Nat.lt_or_eq_of_le hje with hlt | rfl
    · exact .inl (h.white j (by omega) hlt (by omega))
    · exact .inr h.tag
  refine trailing_none (fun hk => ?_) fun hk _ hk' => ?_
  · rcases hkind (k + 1) (Nat.lt_succ_self k) htag with hw | hw <;> rw [hk] at hw <;> cases hw
  · have hne : k + 1 ≠ e := by
      rintro rfl
      rw [h.tag] at hk
      cases hk
    rcases hkind (k + 1 + 1) (by omega) (by omega) with hw | hw <;> rw [hk'] at hw <;> cases hw

theorem trailing_closeTag (stop : Nat) :
    (ts.exchange P M e).trailing (P.length + M.length + 1) stop = P.length + M.length + 1 := by
  have hback : (ts.exchange P M e).kind? (P.length + M.length + 1) = ts.kind? (e + 1) := by
    rw [← h.kind?_back (Nat.le_succ e), shift_succ (Nat.le_refl e), shift_self]
  refine trailing_none (by rw [hback]; exact h.behind.2) fun hw => ?_
  rw [hback] at hw
  exact absurd hw h.behind.1

/-- The statement in a list of entries. -/
theorem keeps_entries {head : Nat} (hstop : ts.Bound stop) (he : e < stop) (hp : p ≠ .members)
    (hno : ts.isNamespace (ts.significant i stop) stop = false)
    (hclass : (ts.classStart? (ts.significant i stop) stop).isNone = true)
    (ha : ts.skipAttributes (ts.significant i stop) stop = .ok head) (hhead : head ≤ f)
    (hend : ts.statementEnd (ts.significant i stop) stop (ts.isBlock head) = .ok (k + 1)) :
    ts.Keeps P M e (.entries p) stop i := by
  have hbounds := statementEnd_bounds hend
  have hs : ts.significant i stop < stop := by omega
  have hattr := le_of_skipAttributes ha
  have hfirm := h.firm_lt
  refine h.keeps_entry hstop hs (by omega) he (fun _ => hno) fun r hr => ?_
  rw [entry_of_declaration hp hno] at hr
  obtain ⟨n, hread, hscope, hsk⟩ := declaration_of_statement hclass ha hend
    (ts.leading i (ts.significant i stop))
  obtain rfl := Except.ok.inj (hread.symm.trans hr)
  have C := h.copy (Nat.le_of_lt he)
  obtain ⟨-, ha', hblock⟩ := h.keeps_head he hs ha hhead
  have hspace := C.isNamespace (Nat.zero_le (ts.significant i stop)) (by omega) (Nat.le_of_lt hs)
  have hclass' := C.classStart? (Nat.zero_le (ts.significant i stop)) (by omega) (Nat.le_of_lt hs)
    (fun j hj => by rw [ha] at hj; cases hj; omega) ha
  simp only [shift_zero] at hspace hclass'
  rw [Option.isNone_iff_eq_none.1 hclass, Option.map_none] at hclass'
  obtain ⟨n', hread', hscope', hsk'⟩ := declaration_of_statement (by rw [hclass']; rfl) ha'
    (by rw [hblock]; exact h.statementEnd hend (by omega) he) (ts.leading i (ts.significant i stop))
  rw [← entry_of_declaration hp (hspace.trans hno)] at hread'
  have hlt := h.lt_tag
  refine ⟨_, e + 1, hread', hsk'.trans hsk.symm, ?_, he, Nat.le_succ e, ?_, ?_⟩
  · rw [finish_snd_of_not_isScope hscope, h.trailing_semicolon]
    omega
  · rw [finish_snd_of_not_isScope hscope, h.trailing_semicolon]
    exact h.loose
  · rw [finish_snd_of_not_isScope hscope', h.trailing_closeTag, shift_succ (Nat.le_refl e), shift_self]

/-- The statement in a method. -/
theorem keeps_statements {head : Nat} (hstop : ts.Bound stop) (he : e < stop)
    (ha : ts.skipAttributes (ts.significant i stop) stop = .ok head) (hhead : head ≤ f)
    (hend : ts.statementEnd (ts.significant i stop) stop (ts.isBlock head) = .ok (k + 1)) :
    ts.Keeps P M e .statements stop i := by
  intro sts hsts
  have hbounds := statementEnd_bounds hend
  have hs : ts.significant i stop < stop := by omega
  have hattr := le_of_skipAttributes ha
  have hfirm := h.firm_lt
  cases hsts with
  | nil hno => exact absurd hs hno
  | notes hno => exact absurd hs hno
  | @cons _ head' next' rest _ ha₀ hend₀ hrest =>
    obtain rfl := Except.ok.inj (ha.symm.trans ha₀)
    obtain rfl := Except.ok.inj (hend.symm.trans hend₀)
    rw [h.trailing_semicolon] at hrest
    have hlt := h.lt_tag
    have hback := h.copy_back (Nat.le_of_lt he)
      (hstop.not_isPunct (z := '#') (by decide))
    have hrest' := split_of_statements (hback.statements
      (statements_of_split (hrest.skip (by omega) he h.loose)) (Nat.le_succ e)
      (Nat.succ_lt_succ he) (Nat.lt_succ_self stop))
    rw [shift_succ (Nat.le_refl e), shift_self, ← h.trailing_closeTag] at hrest'
    obtain ⟨hsig, ha', hblock⟩ := h.keeps_head he hs ha hhead
    have hstop' := ((h.copy (Nat.le_of_lt he)).lt_stop_iff (Nat.zero_le (ts.significant i stop))
      (by omega)).2 hs
    rw [shift_zero] at hstop'
    refine ⟨_, .cons (by rw [hsig]; exact hstop') (by rw [hsig]; exact ha')
      (by rw [hsig, hblock]; exact h.statementEnd hend (by omega) he) hrest', ?_⟩
    rw [List.length_cons, List.length_cons]

theorem keeps {head : Nat} (hs : ts.StatementAt l stop i head (k + 1)) (hstop : ts.Bound stop)
    (he : e < stop) (hhead : head ≤ f) : ts.Keeps P M e l stop i := by
  cases l with
  | statements => exact h.keeps_statements hstop he hs.attributes hhead hs.ends
  | entries p =>
    obtain ⟨hp, hno, hclass⟩ := hs.other p rfl
    exact h.keeps_entries hstop he hp hno hclass hs.attributes hhead hs.ends

/-- What is read alike where the parser comes to is read alike all around it. -/
theorem keeps_file (ha : ts.Arrives l stop i) (hi : i ≤ f) (he : e < stop)
    (hset : ts.Settles (ts.significant i stop) stop (f + 1)) (hK : ts.Keeps P M e l stop i) :
    ∃ body, ts.codeSpan? = some body ∧ body.start ≤ f ∧ e < body.stop ∧
      ts.Keeps P M e (.entries .file) body.stop body.start := by
  induction ha with
  | file hb => exact ⟨_, hb, hi, he, hK⟩
  | @entry p stop i r ha hs hr ih =>
    have hle : i ≤ ts.significant i stop := le_firstFrom_of_lt hs
    have hlt := lt_of_entry hr hs
    have hfinish := ts.le_finish stop r
    refine ih (by omega) he (settles_of_entry hr hs (by omega) fun _ => ?_)
      (h.keeps_next ha.bound hs he hr hi hset hK)
    rwa [significant_finish] at hset
  | @scope stop i ha hn hname hsemi ih =>
    obtain ⟨hs, hlt⟩ := lt_of_isNamespace hn
    have hle : i ≤ ts.significant i stop := le_firstFrom_of_lt hs
    exact ih (by omega) he (settles_of_isNamespace hn (by omega))
      (h.keeps_scope ha.bound he hn hname hsemi (by omega) hK)
  | @block stop i closing ha hn hbrace hm ih =>
    obtain ⟨hs, hlt⟩ := lt_of_isNamespace hn
    have hle : i ≤ ts.significant i stop := le_firstFrom_of_lt hs
    have hclosing := (matching_bounds hm).2
    exact ih (by omega) (by omega) (settles_of_isNamespace hn (by omega))
      (h.keeps_block ha.bound he hn hbrace hm (by omega) hK)
  | @members p stop i c bases interfaces opening closing ha hp hno hc ih =>
    have hkey := hc.keyword_lt
    obtain ⟨hopening, hclosing⟩ := matching_bounds hc.matching
    obtain ⟨head, hattr, hhead⟩ := hc.attributes
    have hle := le_of_skipAttributes hattr
    have hs : ts.significant i stop < stop := by omega
    have hi' : i ≤ ts.significant i stop := le_firstFrom_of_lt hs
    exact ih (by omega) (by omega) (settles_of_skipAttributes hattr (by omega))
      (h.keeps_members ha.bound he hp hno hc (by omega) hK)
  | @body stop i head closing last ha hm ih =>
    obtain ⟨hattr, hmods, hname, hopening, hparams, hclosing, hbody, hlast⟩ := hm.lt
    have hs : ts.significant i stop < stop := by omega
    have hi' : i ≤ ts.significant i stop := le_firstFrom_of_lt hs
    exact ih (by omega) (by omega) (settles_of_skipAttributes hm.attributes (by omega))
      (h.keeps_body ha.bound he hm (by omega) hK)
  | @statement stop i head next ha hattr hend ih =>
    have hbounds := statementEnd_bounds hend
    have htrail := ts.le_trailing next stop
    have hs : ts.significant i stop < stop := by omega
    have hi' : i ≤ ts.significant i stop := le_firstFrom_of_lt hs
    have hhead : head ≤ f := by
      rcases lt_of_statementEndFrom hend hattr with hlt | ⟨-, hattr'⟩
      · omega
      · rw [significant_trailing] at hset
        exact Nat.le_of_lt_succ (hset head hattr')
    exact ih (by omega) he (settles_of_skipAttributes hattr (by omega))
      (h.keeps_statement he hattr hhead hend hi hK)

/-- The file is read without the semicolon as with it. -/
theorem file {head : Nat} {root : Node} (hf : ts.file = .ok root) (ha : ts.Arrives l stop i)
    (hs : ts.StatementAt l stop i head (k + 1)) (hhead : head ≤ f) (he : e < stop) :
    ∃ root', (ts.exchange P M e).file = .ok root' ∧ root'.sketch = root.sketch := by
  have hbounds := statementEnd_bounds hs.ends
  have hs' : ts.significant i stop < stop := by omega
  have hi : i ≤ ts.significant i stop := le_firstFrom_of_lt hs'
  have hattr := le_of_skipAttributes hs.attributes
  obtain ⟨body, hb, hstart, hstop, hK⟩ := h.keeps_file ha (by omega) he
    (settles_of_skipAttributes hs.attributes (by omega)) (h.keeps hs ha.bound he hhead)
  obtain ⟨body', hb', ⟨last, hitems, hhalts⟩, hroot⟩ := entries_of_file hf
  obtain rfl := Option.some.inj (hb.symm.trans hb')
  obtain ⟨ms, mid, -, -, -, -, hms, hend, hsk⟩ := hK _ last hitems hhalts
  have hfirm := h.firm_lt
  refine ⟨_, file_of_entries (h.exchanges.codeSpan? hb (by omega) (by omega)) ⟨_, hms, hend⟩, ?_⟩
  rw [hroot, Node.sketch_eq, Node.sketch_eq]
  simp only [Node.ofSource, hsk]

end Elides

end Tokens
end PhpGraft
