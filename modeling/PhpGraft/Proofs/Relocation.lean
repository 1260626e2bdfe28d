import PhpGraft.Proofs.Sequence
import PhpGraft.Proofs.Window

/-!
A declaration that is copied to another place is read there as it was, with its spans moved along.
-/
namespace PhpGraft

/-! Moving the spans of a node. -/

def Span.move (f : Nat → Nat) (s : Span) : Span := ⟨f s.start, f s.stop⟩

def Anchor.move (f : Nat → Nat) (a : Anchor) : Anchor := ⟨a.span.move f, a.body?.map (·.move f)⟩

def Origin.move (f : Nat → Nat) : Origin → Origin
  | .anchored a => .anchored (a.move f)
  | .detached a => .detached (a.move f)
  | .synthesized => .synthesized

namespace Node

mutual

def move (f : Nat → Nat) : Node → Node
  | ⟨id, origin, decl, children⟩ => ⟨id, origin.move f, decl, moveList f children⟩

def moveList (f : Nat → Nat) : List Node → List Node
  | [] => []
  | n :: ns => move f n :: moveList f ns

end

theorem moveList_append (f : Nat → Nat) (ns ms : List Node) :
    moveList f (ns ++ ms) = moveList f ns ++ moveList f ms := by
  induction ns with
  | nil => rfl
  | cons n ns ih => exact congrArg (move f n :: ·) ih

end Node

namespace Tokens

/-- A window onto the very same tokens. -/
structure Copy (ts us : Tokens) (lo lo' hi stop stop' : Nat) : Prop
    extends Window ts us lo lo' hi stop stop' where
  equal : ∀ k, lo ≤ k → k < hi → us[shift lo lo' k]? = ts[k]?

/-- A node and the index behind it, moved. -/
def relocate (lo lo' : Nat) (r : Node × Nat) : Node × Nat :=
  (r.1.move (shift lo lo'), shift lo lo' r.2)

theorem shift_le {lo lo' i k : Nat} (h : i ≤ k) : shift lo lo' i ≤ shift lo lo' k := by
  unfold shift
  omega

theorem shift_max (lo lo' i k : Nat) :
    max (shift lo lo' i) (shift lo lo' k) = shift lo lo' (max i k) := by
  unfold shift
  omega

theorem importClauses?_eq (ts : Tokens) (i stop : Nat) : ts.importClauses? i stop =
    if i < stop ∧ ts.isName i then
      (ts.importAlias? (ts.significant (i + 1) stop) stop).bind fun r =>
        if ts.isPunct r.2 ',' then
          (ts.importClauses? (ts.significant (r.2 + 1) stop) stop).map
            (⟨(ts.text i).dropWhile (· == '\\'), r.1⟩ :: ·)
        else if ts.isPunct r.2 ';' then some [⟨(ts.text i).dropWhile (· == '\\'), r.1⟩]
        else none
    else none := by
  rw [importClauses?]
  split
  · split <;> simp only [‹ts.importAlias? _ _ = _›, Option.bind_none, Option.bind_some]
  · rfl

theorem statements_cons {ts : Tokens} {i stop head next : Nat} {rest : List Text}
    (hs : ts.significant i stop < stop)
    (ha : ts.skipAttributes (ts.significant i stop) stop = .ok head)
    (he : ts.statementEnd (ts.significant i stop) stop (ts.isBlock head) = .ok next)
    (hrest : ts.statements (ts.trailing next stop) stop = .ok rest) :
    ts.statements i stop = .ok ((ts.between (ts.leading i (ts.significant i stop))
      (ts.trailing next stop)).trim :: rest) := by
  rw [statements, dif_pos hs]
  split
  · rename_i ha'
    rw [ha] at ha'
    cases ha'
  · rename_i ha'
    rw [ha] at ha'
    cases ha'
    split
    · rename_i he'
      rw [he] at he'
      cases he'
    · rename_i he'
      rw [he] at he'
      cases he'
      simp only [hrest]

theorem statements_nil {ts : Tokens} {i stop : Nat} (hs : ¬ ts.significant i stop < stop) :
    ts.statements i stop =
      .ok (if (ts.between (ts.leading i (ts.significant i stop)) stop).trim.isEmpty then []
        else [(ts.between (ts.leading i (ts.significant i stop)) stop).trim]) := by
  rw [statements, dif_neg hs]

theorem modifiers_le (ts : Tokens) {i stop : Nat} (words : List Text) (hi : i ≤ stop) :
    (ts.modifiers words i stop).2 ≤ stop := by
  fun_induction modifiers ts words i stop with
  | case1 i _ _ _ _ ih => exact ih (ts.significant_le ..)
  | case2 => exact hi
  | case3 => exact hi

theorem keyword_lt_of_classDecl {ts : Tokens} {start stop : Nat} {c : ClassStart} {r : Node × Nat}
    (h : ts.classDecl start c stop = .ok r) (hk : c.keyword ≤ stop) : c.keyword < r.2 := by
  unfold classDecl at h
  dsimp only at h
  split at h
  · cases h
  rename_i opening hp
  split at h
  · cases h
  rename_i closing hm
  split at h
  · cases h
  cases h
  have hbounds := matching_bounds hm
  have hle := le_of_classParents hp
  have hmin := ts.min_le_significant (c.keyword + 1) stop
  have hmin' := ts.min_le_significant (ts.significant (c.keyword + 1) stop + 1) stop
  dsimp only
  omega

theorem keyword_lt_of_method {ts : Tokens} {start first function stop : Nat} {modifiers : List Text}
    {r : Node × Nat} (h : ts.method start first function modifiers stop = .ok r)
    (hname : ts.isName function = true) (hle : function ≤ stop) : function < r.2 := by
  rcases Nat.lt_or_eq_of_le hle with hlt | rfl
  · exact lt_of_method h (Nat.le_refl _) hlt
  · have hno : ∀ c, ts.isPunct function c = false := by
      intro c
      refine Bool.eq_false_iff.2 fun hp => ?_
      rw [isName, kind?, isPunct_iff.1 hp] at hname
      cases hname
    have hend : ts.significant (function + 1) function = function := by
      rw [significant, firstFrom, if_neg (Nat.not_lt_of_le (Nat.le_succ _))]
    unfold method methodName at h
    simp [hend, hno, hname] at h

/-- The parameters of a method and its body, or the semicolon in its place, stand in front of its
end. -/
theorem opening_lt_of_method {ts : Tokens} {start first function stop : Nat} {modifiers : List Text}
    {r : Node × Nat} (h : ts.method start first function modifiers stop = .ok r) :
    ts.significant ((ts.methodName function stop).2 + 1) stop + 1 < r.2 ∧
      ts.significant ((ts.methodName function stop).2 + 1) stop < stop := by
  unfold method at h
  dsimp only at h
  split at h
  · cases h
  split at h
  · cases h
  rename_i hopen
  split at h
  · cases h
  rename_i closing hm
  split at h
  · cases h
  rename_i hbody
  cases h
  rw [Bool.not_eq_true', Bool.not_eq_false] at hopen
  have hclose := (matching_closes (b := .round) hopen hm).1
  have hbounds := matching_bounds hm
  have hlt := lt_of_methodBody hbody
  have hmin := ts.min_le_significant (closing + 1) stop
  have hmin' := ts.min_le_returnType (ts.significant (closing + 1) stop) stop
  dsimp only
  omega

theorem scopeHead_lt_of_namespaceDecl {ts : Tokens} {start keyword stop : Nat} {r : Node × Nat}
    (h : ts.namespaceDecl start keyword stop = .ok r) : (ts.scopeHead keyword stop).2 < r.2 := by
  rcases namespaceDecl_cases h with
    ⟨-, -, children, hd, -⟩ | ⟨-, closing, children, last, hm, -, rfl⟩
  · exact le_of_declarations hd
  · exact Nat.lt_succ_of_le (matching_bounds hm).1

theorem classModifiers_subset : classModifiers ⊆ passedWords := by decide

theorem memberModifiers_subset : memberModifiers ⊆ passedWords := by decide

theorem not_firm_of_isKeyword {ts : Tokens} {i : Nat} {word : Text}
    (h : ts.isKeyword i word = true) (hw : word ∈ passedWords) : ¬ts.Firm i := by
  intro hf
  have hno : ts.isOneOf i [word] = false :=
    hf.not_isOneOf (List.cons_subset.2 ⟨hw, List.nil_subset _⟩)
  rw [isOneOf, List.any_cons, h] at hno
  cases hno

theorem not_firm_of_ofKeyword? {ts : Tokens} {i : Nat} {kind : ClassKind} (hn : ts.isName i = true)
    (h : ClassKind.ofKeyword? (ts.text i) = some kind) : ¬ts.Firm i := by
  have hword : (ts.text i).lower = kind.word := by
    unfold ClassKind.ofKeyword? at h
    have hfound := List.find?_some h
    exact (beq_iff_eq.1 hfound).symm
  have hkey : ts.isKeyword i kind.word = true := Bool.and_eq_true_iff.2 ⟨hn, beq_iff_eq.2 hword⟩
  refine not_firm_of_isKeyword hkey ?_
  cases kind <;> decide

theorem skipAttributes_of_isKeyword {ts : Tokens} {i stop : Nat} {word : Text}
    (h : ts.isKeyword i word = true) : ts.skipAttributes i stop = .ok i := by
  rw [skipAttributes, if_neg]
  intro hc
  have hhash := isPunct_iff.1 (Bool.and_eq_true_iff.1 hc).1
  have hname := (Bool.and_eq_true_iff.1 h).1
  rw [isName, kind?, hhash] at hname
  cases hname

/-- The attributes of what starts at `i` end in front of `hi`. -/
def Settles (ts : Tokens) (i stop hi : Nat) : Prop :=
  ∀ j, ts.skipAttributes i stop = .ok j → j < hi

section

variable {ts : Tokens} {p : Place} {start first i stop last hi : Nat} {r : Node × Nat}
  {ns : List Node}

theorem settles_of_lt (hi' : i ≤ stop) (h : stop < hi) : ts.Settles i stop hi :=
  fun _ ha => Nat.lt_of_le_of_lt (skipAttributes_le ha hi') h

theorem settles_of_isKeyword {word : Text} (h : ts.isKeyword i word = true) (hi' : i < hi) :
    ts.Settles i stop hi := by
  intro j ha
  rw [skipAttributes_of_isKeyword h] at ha
  cases ha
  exact hi'

theorem settles_of_verbatim {block : Bool} (h : ts.verbatim start first stop block = .ok r)
    (hr : r.2 ≤ hi) (hnext : ts.kind? (r.2 - 1) = some .closeTag →
      ts.Settles (ts.significant r.2 stop) stop hi) : ts.Settles first stop hi := by
  intro j ha
  unfold verbatim at h
  split at h
  · cases h
  rename_i next he
  cases h
  rcases lt_of_statementEndFrom he ha with hlt | ⟨hk, ha'⟩
  · exact Nat.lt_of_lt_of_le hlt hr
  · exact hnext hk j ha'

theorem settles_of_declaration (h : ts.declaration start first stop = .ok r) (hs : first < stop)
    (hr : r.2 ≤ hi) (hnext : ts.kind? (r.2 - 1) = some .closeTag →
      ts.Settles (ts.significant r.2 stop) stop hi) : ts.Settles first stop hi := by
  have hlt := lt_of_declaration h hs
  unfold declaration at h
  split at h
  · exact settles_of_isKeyword ‹_› (by omega)
  split at h
  · rename_i c hc
    intro j ha
    rw [classStart?, ha] at hc
    dsimp only at hc
    split at hc
    · obtain ⟨kind, -, rfl⟩ := Option.map_eq_some_iff.1 hc
      have hmods := ts.le_of_modifiers classModifiers j stop
      have hkey := keyword_lt_of_classDecl h (ts.modifiers_le _ (skipAttributes_le ha (Nat.le_of_lt hs)))
      dsimp only at hkey
      omega
    · cases hc
  split at h
  · cases h
  · exact settles_of_verbatim h hr hnext

theorem settles_of_member (h : ts.member start first stop = .ok r) (hs : first < stop)
    (hr : r.2 ≤ hi) (hnext : ts.kind? (r.2 - 1) = some .closeTag →
      ts.Settles (ts.significant r.2 stop) stop hi) : ts.Settles first stop hi := by
  unfold member at h
  split at h
  · cases h
  rename_i i ha
  dsimp only at h
  split at h
  · intro j ha'
    rw [ha] at ha'
    cases ha'
    have hle := skipAttributes_le ha (Nat.le_of_lt hs)
    have hmods := ts.le_of_modifiers memberModifiers i stop
    rcases Nat.lt_or_eq_of_le hle with hlt | rfl
    · exact Nat.lt_of_lt_of_le (lt_of_method h hmods hlt) hr
    · have := keyword_lt_of_method h (Bool.and_eq_true_iff.1 ‹_›).1 (ts.modifiers_le _ hle)
      omega
  · exact settles_of_verbatim h hr hnext

theorem settles_of_entry (h : ts.entry p start first stop = .ok r) (hs : first < stop)
    (hr : r.2 ≤ hi) (hnext : ts.kind? (r.2 - 1) = some .closeTag →
      ts.Settles (ts.significant r.2 stop) stop hi) : ts.Settles first stop hi := by
  have hlt := lt_of_entry h hs
  unfold entry at h
  split at h
  · split at h
    · rename_i hn
      exact settles_of_isKeyword (Bool.and_eq_true_iff.1 (Bool.and_eq_true_iff.1 hn).1).1 (by omega)
    · exact settles_of_declaration h hs hr hnext
  · split at h
    · cases h
    · exact settles_of_declaration h hs hr hnext
  · exact settles_of_member h hs hr hnext

/-- Code is found behind the comment that ends a line as it is in front of it. -/
theorem significant_trailing (ts : Tokens) (i stop : Nat) :
    ts.significant (ts.trailing i stop) stop = ts.significant i stop := by
  have hcomment : ∀ {k}, k < stop ∧ ts.kind? k = some .lineComment →
      ts.significant (k + 1) stop = ts.significant k stop := by
    rintro k ⟨hlt, hk⟩
    refine (significant_succ ?_ hlt).symm
    rw [isCode, hk]
    rfl
  unfold trailing
  dsimp only
  split
  · rename_i hspace
    split
    · rename_i hc
      rw [hcomment hc]
      refine (significant_succ ?_ (by omega)).symm
      rw [isCode, beq_iff_eq.1 (Bool.and_eq_true_iff.1 hspace).1]
      rfl
    · rfl
  · split
    · exact hcomment ‹_›
    · rfl

theorem withTrailing_snd (ts : Tokens) (stop : Nat) (r : Node × Nat) :
    (ts.withTrailing stop r).2 = ts.trailing r.2 stop := by
  unfold withTrailing
  dsimp only
  split <;> rfl

theorem significant_finish (ts : Tokens) (stop : Nat) (r : Node × Nat) :
    ts.significant (ts.finish stop r).2 stop = ts.significant r.2 stop := by
  unfold finish
  split
  · rfl
  · rw [withTrailing_snd, significant_trailing]

/-- The attributes of each entry end in front of `hi`, if those of what follows the list do. -/
theorem Items.settles {hi : Nat} (h : ts.Items p stop i ns last) (hl : last < hi)
    (hnext : ts.Settles (ts.significant last stop) stop hi) :
    ts.Settles (ts.significant i stop) stop hi := by
  induction h with
  | nil => exact hnext
  | @cons i r ns last hs he h ih =>
    have hle := ts.le_finish stop r
    have hlast := h.le
    have hrest := ih hl hnext
    rw [significant_finish] at hrest
    exact settles_of_entry he hs (by omega) fun _ => hrest

end

namespace Copy

variable {ts us : Tokens} {lo lo' hi stop stop' i j : Nat}

theorem of_equal (edge : Edge ts lo lo' hi stop stop')
    (continues : ts.isPunct (hi - 1) '\x7d' = true → hi ≤ stop →
      us.continues (shift lo lo' hi) stop' = ts.continues hi stop)
    (equal : ∀ k, lo ≤ k → k < hi → us[shift lo lo' k]? = ts[k]?) :
    Copy ts us lo lo' hi stop stop' :=
  ⟨⟨fun k hk hkh => .of_eq (equal k hk hkh), edge, continues⟩, equal⟩

variable (C : Copy ts us lo lo' hi stop stop')
include C

theorem narrow {n : Nat} (hlo : lo ≤ n) (hn : n < hi) (hs : n ≤ stop) :
    Copy ts us lo lo' hi n (shift lo lo' n) :=
  ⟨C.toWindow.narrow hlo hn hs, C.equal⟩

theorem close (hs : hi ≤ stop) : Copy ts us lo lo' hi hi (shift lo lo' hi) :=
  ⟨C.toWindow.close hs, C.equal⟩

/-- A bound in the stretch moves with it. -/
theorem stop_eq (hstop : stop < hi) : stop' = shift lo lo' stop ∧ lo ≤ stop := by
  cases C.edge with
  | bound h => exact ⟨rfl, h⟩
  | wall => omega

theorem text_eq (hlo : lo ≤ i) (hi' : i < hi) : us.text (shift lo lo' i) = ts.text i := by
  rw [text, text, C.equal i hlo hi']

theorem extract_eq (hlo : lo ≤ i) (hj : j ≤ hi) :
    (us.extract (shift lo lo' i) (shift lo lo' j)).toList = (ts.extract i j).toList := by
  refine List.ext_getElem? fun k => ?_
  rw [Array.getElem?_toList, Array.getElem?_toList, Array.getElem?_extract, Array.getElem?_extract]
  by_cases hk : i + k < j
  · have hget := C.equal (i + k) (by omega) (by omega)
    have hshift : shift lo lo' (i + k) = shift lo lo' i + k := by
      unfold shift
      omega
    have hlt : shift lo lo' i + k < shift lo lo' j := hshift ▸ (shift_lt (by omega)).2 hk
    rw [hshift] at hget
    by_cases hsize : i + k < ts.size
    · have hsize' : shift lo lo' i + k < us.size := by
        refine Nat.lt_of_not_le fun h => ?_
        rw [Array.getElem?_eq_none h, Array.getElem?_eq_getElem hsize] at hget
        cases hget
      rw [if_pos (by omega), if_pos (by omega), hget]
    · have hsize' : us.size ≤ shift lo lo' i + k := by
        refine Nat.le_of_not_lt fun h => ?_
        rw [Array.getElem?_eq_getElem h, Array.getElem?_eq_none (Nat.le_of_not_lt hsize)] at hget
        cases hget
      rw [if_neg (by omega), if_neg (by omega)]
  · have hle : shift lo lo' j ≤ shift lo lo' i + k := by
      unfold shift
      omega
    rw [if_neg (by omega), if_neg (by omega)]

theorem between_eq (hlo : lo ≤ i) (hj : j ≤ hi) :
    us.between (shift lo lo' i) (shift lo lo' j) = ts.between i j := by
  rw [between, between, C.extract_eq hlo hj]

theorem verbatim {start first : Nat} {block : Bool} {r : Node × Nat}
    (h : ts.verbatim start first stop block = .ok r) (hlo : lo ≤ start) (hs : start ≤ first)
    (hr : r.2 ≤ hi) : us.verbatim (shift lo lo' start) (shift lo lo' first) stop' block =
      .ok (relocate lo lo' r) := by
  unfold Tokens.verbatim at h ⊢
  split at h
  · cases h
  rename_i next he
  cases h
  rw [C.toWindow.statementEnd he (Nat.le_trans hlo hs) hr]
  simp only [C.between_eq (Nat.le_trans hlo hs) hr]
  rfl

/-! Imports. The search for one ends with a statement. -/

theorem importAlias? (hlast : hi ≤ stop → ts.Ended hi) (hlo : lo ≤ i) (hi' : i < hi) (hs : i ≤ stop) :
    us.importAlias? (shift lo lo' i) stop' =
        (ts.importAlias? i stop).map (fun r => (r.1, shift lo lo' r.2)) ∧
      ∀ r, ts.importAlias? i stop = some r → lo ≤ r.2 ∧ r.2 < hi := by
  unfold Tokens.importAlias?
  rw [(C.alike i hlo hi').isKeyword_eq]
  cases hk : ts.isKeyword i "as" with
  | false =>
    refine ⟨rfl, ?_⟩
    rintro r ⟨⟩
    exact ⟨hlo, hi'⟩
  | true =>
    have hname : ts.isName i = true := (Bool.and_eq_true_iff.1 hk).1
    obtain ⟨he, h₁, h₂⟩ := C.toWindow.next (Window.lt_of_isName hlast hname hi') hlo hi' hs
    simp only [if_true, he, (C.alike _ h₁ h₂).isName_eq, C.text_eq h₁ h₂]
    cases hn : ts.isName (ts.significant (i + 1) stop) with
    | false => exact ⟨rfl, nofun⟩
    | true =>
      obtain ⟨he', h₃, h₄⟩ := C.toWindow.next (Window.lt_of_isName hlast hn h₂) h₁ h₂
        (ts.significant_le ..)
      rw [he']
      refine ⟨rfl, ?_⟩
      rintro r ⟨⟩
      exact ⟨h₃, h₄⟩

theorem importClauses? (hlast : hi ≤ stop → ts.Ended hi) (hlo : lo ≤ i) (hi' : i < hi) (hs : i ≤ stop) :
    us.importClauses? (shift lo lo' i) stop' = ts.importClauses? i stop := by
  induction hm : stop - i using Nat.strongRecOn generalizing i with
  | _ m ih =>
    subst hm
    rw [importClauses?_eq us, importClauses?_eq ts]
    simp only [(C.alike i hlo hi').isName_eq, C.lt_stop_iff hlo hi']
    split
    · rename_i hc
      obtain ⟨he, h₁, h₂⟩ := C.toWindow.next (Window.lt_of_isName hlast hc.2 hi') hlo hi' hs
      obtain ⟨ha, hbounds⟩ := C.importAlias? hlast h₁ h₂ (ts.significant_le ..)
      rw [he, ha, C.text_eq hlo hi']
      cases hr : ts.importAlias? (ts.significant (i + 1) stop) stop with
      | none => rfl
      | some r =>
        obtain ⟨h₃, h₄⟩ := hbounds r hr
        obtain ⟨hle, hstop⟩ := le_of_importAlias? hr (ts.significant_le ..)
        have := ts.min_le_significant (i + 1) stop
        have := ts.min_le_significant (r.2 + 1) stop
        simp only [Option.map_some, Option.bind_some, (C.alike r.2 h₃ h₄).isPunct_eq]
        split
        · rename_i hcomma
          have hnext : hi ≤ stop → r.2 + 1 < hi := by
            intro hs'
            refine Nat.lt_of_le_of_ne h₄ fun he => ?_
            have hno := (hlast hs').not_isPunct (c := ',') rfl
            rw [← he, Nat.add_sub_cancel, hcomma] at hno
            cases hno
          obtain ⟨he', h₅, h₆⟩ := C.toWindow.next hnext h₃ h₄ hstop
          rw [he', ih _ (by omega) h₅ h₆ (ts.significant_le ..) rfl]
        · rfl
    · rfl

/-- The clauses of an import that starts at `i`. -/
theorem import? (hlast : hi ≤ stop → ts.Ended hi) (hlo : lo ≤ i) (hi' : i < hi) (hs : i ≤ stop)
    (hname : ts.isName i = true) : us.import? (shift lo lo' i) stop' = ts.import? i stop := by
  have hnext := fun {i} (hname : ts.isName i = true) hi' => Window.lt_of_isName hlast hname hi'
  obtain ⟨he, h₁, h₂⟩ := C.toWindow.next (hnext hname hi') hlo hi' hs
  have hkey := (C.alike _ h₁ h₂).isKeyword_eq
  simp only [Tokens.import?, he, hkey]
  split
  · rename_i hk
    obtain ⟨he', h₃, h₄⟩ := C.toWindow.next
      (hnext (Bool.and_eq_true_iff.1 hk).1 h₂) h₁ h₂ (ts.significant_le ..)
    rw [if_neg nofun, if_neg nofun, he', C.importClauses? hlast h₃ h₄ (ts.significant_le ..)]
  · split
    · rename_i hk
      obtain ⟨he', h₃, h₄⟩ := C.toWindow.next
        (hnext (Bool.and_eq_true_iff.1 hk).1 h₂) h₁ h₂ (ts.significant_le ..)
      rw [if_neg nofun, if_neg nofun, he', C.importClauses? hlast h₃ h₄ (ts.significant_le ..)]
    · rw [if_pos rfl, if_pos rfl, C.importClauses? hlast h₁ h₂ (ts.significant_le ..)]

/-- A search that ends behind a statement of the stretch. -/
theorem upTo {n : Nat} (hlo : lo ≤ n) (hn : n ≤ hi) (hs : n ≤ stop) :
    Copy ts us lo lo' hi n (shift lo lo' n) := by
  rcases Nat.lt_or_eq_of_le hn with hlt | rfl
  · exact C.narrow hlo hlt hs
  · exact C.close hs

theorem importDecl {start first : Nat} {r : Node × Nat} (h : ts.importDecl start first stop = .ok r)
    (hlo : lo ≤ start) (hs : start ≤ first) (hname : ts.isName first = true) (hr : r.2 ≤ hi) :
    us.importDecl (shift lo lo' start) (shift lo lo' first) stop' = .ok (relocate lo lo' r) := by
  unfold Tokens.importDecl at h ⊢
  split at h
  · cases h
  rename_i next he
  have hbounds := statementEnd_bounds he
  have hnext : r.2 = next := by
    split at h
    · cases h
      rfl
    · unfold Tokens.verbatim at h
      rw [he] at h
      cases h
      rfl
  rw [hnext] at hr
  have C' := C.upTo (show lo ≤ next by omega) hr hbounds.2
  have hlast : hi ≤ next → ts.Ended hi := fun h => Nat.le_antisymm hr h ▸ ended_statementEnd he
  rw [C.toWindow.statementEnd he (Nat.le_trans hlo hs) hr]
  simp only [C'.import? hlast (Nat.le_trans hlo hs) (by omega) (Nat.le_of_lt hbounds.1) hname]
  split at h
  · cases h
    rfl
  · exact C.verbatim h hlo hs (hnext ▸ hr)

/-! Methods. -/

theorem lastDoc? (hlo : lo ≤ i) (hj : j ≤ hi) :
    us.lastDoc? (shift lo lo' i) (shift lo lo' j) = ts.lastDoc? i j := by
  rw [Tokens.lastDoc?, Tokens.lastDoc?, C.extract_eq hlo hj]

theorem isBlock (hlo : lo ≤ i) (hi' : i < hi) : us.isBlock (shift lo lo' i) = ts.isBlock i :=
  (C.alike i hlo hi').isBlock_eq

theorem statements {sts : List Text} (h : ts.statements i stop = .ok sts) (hlo : lo ≤ i)
    (hi' : i < hi) (hstop : stop < hi) : us.statements (shift lo lo' i) stop' = .ok sts := by
  fun_induction Tokens.statements ts i stop generalizing sts with
  | case1 => cases h
  | case2 => cases h
  | case3 => cases h
  | case4 i first start hs head ha next he =>
    rename_i rest hrest ih
    cases h
    have hfirst : i ≤ ts.significant i stop := le_firstFrom_of_lt hs
    obtain ⟨hf, h₁, h₂⟩ := C.toWindow.significant hlo hi'
    have hhead := skipAttributes_le ha (Nat.le_of_lt hs)
    obtain ⟨ha', hlo'⟩ := C.toWindow.skipAttributes ha h₁ h₂ (Nat.le_of_lt hs) (by omega)
    have hnext := statementEnd_bounds he
    have he' := C.toWindow.statementEnd he h₁ (by omega)
    obtain ⟨ht, h₃⟩ := C.toWindow.trailing (show lo ≤ next by omega) (by omega)
    have hle := ts.le_trailing next stop
    have hstart := C.toWindow.leading hlo h₂
    have hlead := ts.le_leading hfirst
    rw [← C.isBlock hlo' (by omega)] at he'
    rw [← hf] at ha' he' hstart
    rw [statements_cons (by rw [hf, C.lt_stop_iff h₁ h₂]; exact hs) ha' he'
      (by rw [ht]; exact ih hrest (by omega) h₃), hstart, ht,
      C.between_eq (by omega) (Nat.le_of_lt h₃)]
  | case5 i first start hs =>
    cases h
    obtain ⟨hf, h₁, h₂⟩ := C.toWindow.significant hlo hi'
    have hstart := C.toWindow.leading hlo h₂
    have hend : us.between (us.leading (shift lo lo' i) (us.significant (shift lo lo' i) stop'))
        stop' = ts.between (ts.leading i (ts.significant i stop)) stop := by
      have hlead : lo ≤ ts.leading i (ts.significant i stop) := by
        have := min_le_firstFrom ts.isComment i (ts.significant i stop)
        unfold Tokens.leading
        omega
      rw [hf, hstart, (C.stop_eq hstop).1, C.between_eq hlead (Nat.le_of_lt hstop)]
    rw [statements_nil (by rw [hf, C.lt_stop_iff h₁ h₂]; exact hs), hend]

theorem methodBody {r : Option (List Text) × Nat} (h : ts.methodBody i stop = .ok r) (hlo : lo ≤ i)
    (hi' : i < hi) (hr : r.2 ≤ hi) :
    us.methodBody (shift lo lo' i) stop' = .ok (r.1, shift lo lo' r.2) := by
  unfold Tokens.methodBody at h ⊢
  simp only [(C.alike i hlo hi').isPunct_eq]
  split at h
  · rename_i hopen
    split at h
    · cases h
    rename_i closing hm
    split at h
    · cases h
    rename_i body hb
    cases h
    have hbounds := matching_bounds hm
    have hclose := (matching_closes (b := .curly) hopen hm).1
    have hin : lo ≤ closing := by omega
    have C' := C.narrow hin hr (Nat.le_of_lt hbounds.2)
    have hbody := C'.statements hb (Nat.le_succ_of_le hlo) (Nat.lt_of_le_of_lt hclose hr) hr
    rw [shift_succ hlo] at hbody
    rw [if_pos hopen, C.toWindow.matching hm hlo hr]
    simp only [hbody, shift_succ hin]
  · rename_i hopen
    rw [if_neg hopen]
    split at h
    · rename_i hsemi
      cases h
      rw [if_pos hsemi, shift_succ hlo]
    · cases h

theorem methodName (hlo : lo ≤ i) (hi' : i < hi) (hs : i ≤ stop)
    (hlast : hi ≤ stop → (ts.methodName i stop).2 < hi) :
    us.methodName (shift lo lo' i) stop' =
        ((ts.methodName i stop).1, shift lo lo' (ts.methodName i stop).2) ∧
      lo ≤ (ts.methodName i stop).2 ∧ (ts.methodName i stop).2 < hi ∧
      (ts.methodName i stop).2 ≤ stop := by
  have hle := ts.significant_le (i + 1) stop
  have hnext : hi ≤ stop → i + 1 < hi ∧ (ts.isPunct (ts.significant (i + 1) stop) '&' = true →
      ts.significant (i + 1) stop + 1 < hi) := by
    intro hs'
    have hend := hlast hs'
    have hmin := ts.min_le_significant (i + 1) stop
    have hmin' := ts.min_le_significant (ts.significant (i + 1) stop + 1) stop
    unfold Tokens.methodName at hend
    dsimp only at hend
    split at hend
    · exact ⟨by omega, fun _ => by omega⟩
    · exact ⟨by omega, fun hamp => absurd hamp ‹_›⟩
  obtain ⟨he, h₁, h₂⟩ := C.toWindow.next (fun hs' => (hnext hs').1) hlo hi' hs
  unfold Tokens.methodName
  simp only [he, (C.alike _ h₁ h₂).isPunct_eq]
  split
  · rename_i hamp
    obtain ⟨he', h₃, h₄⟩ := C.toWindow.next (fun hs' => (hnext hs').2 hamp) h₁ h₂ hle
    exact ⟨by rw [he'], h₃, h₄, ts.significant_le ..⟩
  · exact ⟨rfl, h₁, h₂, hle⟩

theorem returnType (hlo : lo ≤ i) (hi' : i < hi) (hj : (ts.returnType i stop).2 < hi) :
    us.returnType (shift lo lo' i) stop' =
        ((ts.returnType i stop).1, shift lo lo' (ts.returnType i stop).2) ∧
      lo ≤ (ts.returnType i stop).2 := by
  unfold Tokens.returnType at hj ⊢
  rw [(C.alike i hlo hi').isPunct_eq]
  cases hcolon : ts.isPunct i ':' with
  | false => exact ⟨rfl, hlo⟩
  | true =>
    simp only [hcolon, if_true] at hj ⊢
    have hsearch := C.toWindow.search (p := fun j => ts.isPunct j '\x7b' || ts.isPunct j ';')
      (q := fun j => us.isPunct j '\x7b' || us.isPunct j ';') (Nat.le_succ_of_le hlo)
      (fun k hk hkh => by simp only [(C.alike k (by omega) hkh).isPunct_eq]) hj
    rw [shift_succ hlo] at hsearch
    have hbetween := C.between_eq (Nat.le_succ_of_le hlo) (Nat.le_of_lt hj)
    rw [shift_succ hlo] at hbetween
    rw [hsearch.1, hbetween]
    exact ⟨rfl, hsearch.2⟩

theorem method {start first function : Nat} {modifiers : List Text} {r : Node × Nat}
    (h : ts.method start first function modifiers stop = .ok r) (hlo : lo ≤ start)
    (hs : start ≤ first) (hf : first ≤ function) (hfun : ts.isKeyword function "function" = true)
    (hle : function ≤ stop) (hr : r.2 ≤ hi) :
    us.method (shift lo lo' start) (shift lo lo' first) (shift lo lo' function) modifiers stop' =
      .ok (relocate lo lo' r) := by
  have hname := (Bool.and_eq_true_iff.1 hfun).1
  have hlt := keyword_lt_of_method h hname hle
  have hopening := opening_lt_of_method h
  have hmin := ts.min_le_significant ((ts.methodName function stop).2 + 1) stop
  obtain ⟨hn, h₁, h₂, h₃⟩ := C.methodName (show lo ≤ function by omega) (by omega) hle
    fun hs' => by omega
  unfold Tokens.method at h ⊢
  dsimp only at h ⊢
  rw [hn]
  dsimp only
  generalize ts.methodName function stop = name at hn h₁ h₂ h₃ hopening hmin h ⊢
  rw [(C.alike _ h₁ h₂).isName_eq]
  split at h
  · cases h
  rename_i hisName
  rw [if_neg hisName]
  rw [Bool.not_eq_true', Bool.not_eq_false] at hisName
  obtain ⟨ho, h₄, h₅⟩ := C.toWindow.next (fun hs' => by omega) h₁ h₂ h₃
  rw [ho, (C.alike _ h₄ h₅).isPunct_eq]
  split at h
  · cases h
  rename_i hround
  rw [if_neg hround]
  rw [Bool.not_eq_true', Bool.not_eq_false] at hround
  split at h
  · cases h
  rename_i closing hm
  split at h
  · cases h
  rename_i body next hbody
  cases h
  have hclosing := matching_bounds hm
  have hin : lo ≤ closing := by omega
  have h₉ : (ts.returnType (ts.significant (closing + 1) stop) stop).2 < hi :=
    Nat.lt_of_lt_of_le (lt_of_methodBody hbody) hr
  have hmin := ts.min_le_significant (closing + 1) stop
  have hmin' := ts.min_le_returnType (ts.significant (closing + 1) stop) stop
  obtain ⟨hb, h₆, h₇⟩ := C.toWindow.next (fun hs' => by omega) hin (by omega)
    (Nat.le_of_lt hclosing.2)
  obtain ⟨ht, h₈⟩ := C.returnType h₆ h₇ h₉
  have hparams := C.between_eq (Nat.le_succ_of_le h₄) (show closing ≤ hi by omega)
  rw [shift_succ h₄] at hparams
  rw [C.toWindow.matching hm h₄ (by omega)]
  simp only [hb, ht, C.methodBody hbody h₈ h₉ hr]
  simp only [hparams, C.text_eq h₁ h₂, C.lastDoc? hlo (show first ≤ hi by omega)]
  rfl

theorem member {start first : Nat} {r : Node × Nat} (h : ts.member start first stop = .ok r)
    (hlo : lo ≤ start) (hs : start ≤ first) (hf : first ≤ stop) (hr : r.2 ≤ hi)
    (hskip : ts.Settles first stop hi) :
    us.member (shift lo lo' start) (shift lo lo' first) stop' = .ok (relocate lo lo' r) := by
  unfold Tokens.member at h ⊢
  split at h
  · cases h
  rename_i i ha
  have hle := skipAttributes_le ha hf
  have hge := le_of_skipAttributes ha
  have hhi := hskip i ha
  obtain ⟨ha', hlo'⟩ := C.toWindow.skipAttributes ha (show lo ≤ first by omega) (by omega) hf hhi
  obtain ⟨hm, h₁, h₂⟩ := C.toWindow.modifiers memberModifiers_subset hlo' hhi
  have hmge := ts.le_of_modifiers memberModifiers i stop
  have hmle := ts.modifiers_le memberModifiers hle
  rw [ha']
  dsimp only at h ⊢
  rw [hm]
  dsimp only
  generalize ts.modifiers memberModifiers i stop = m at h h₁ h₂ hmge hmle ⊢
  simp only [(C.alike _ h₁ h₂).isKeyword_eq]
  split at h
  · rename_i hk
    rw [if_pos hk]
    exact C.method h hlo hs (by omega) hk hmle hr
  · rename_i hk
    rw [if_neg hk]
    exact C.verbatim h hlo hs hr

theorem withTrailing {r : Node × Nat} (hlo : lo ≤ r.2) (hr : r.2 < hi) :
    us.withTrailing stop' (relocate lo lo' r) = relocate lo lo' (ts.withTrailing stop r) := by
  obtain ⟨⟨id, origin, decl, children⟩, next⟩ := r
  have ht := (C.toWindow.trailing hlo hr).1
  dsimp only at ht
  cases origin <;>
    simp only [Tokens.withTrailing, relocate, Node.move, Origin.move, Anchor.move, Span.move, ht,
      shift_max]

theorem closingComments (hlo : lo ≤ i) (hstop : stop < hi) :
    us.closingComments (shift lo lo' i) stop' =
      Node.moveList (shift lo lo') (ts.closingComments i stop) := by
  obtain ⟨hs, hlo'⟩ := C.stop_eq hstop
  have hstart : us.leading (shift lo lo' i) (shift lo lo' stop) = _ := C.toWindow.leading hlo hstop
  have hmin := min_le_firstFrom ts.isComment i stop
  have hlead : lo ≤ ts.leading i stop := by
    unfold Tokens.leading
    omega
  have hle := ts.dropWhile_extract_le (!·.kind.isComment) (ts.leading i stop) stop
  have hstop' := ts.leading_le i stop
  unfold Tokens.closingComments
  simp only [hs, hstart, C.extract_eq hlead (Nat.le_of_lt hstop)]
  generalize ((ts.extract (ts.leading i stop) stop).toList.reverse.dropWhile
    (!·.kind.isComment)).length = size at hle
  split
  · rfl
  · have hshift : shift lo lo' (ts.leading i stop) + size =
        shift lo lo' (ts.leading i stop + size) := by
      unfold shift
      omega
    rw [hshift, C.between_eq hlead (by omega)]
    rfl

/-! Lists. -/

theorem finish {r : Node × Nat} (hlo : lo ≤ r.2) (hr : r.2 < hi) :
    us.finish stop' (relocate lo lo' r) = relocate lo lo' (ts.finish stop r) := by
  have hdecl : (relocate lo lo' r).1.decl = r.1.decl := by
    obtain ⟨⟨id, origin, decl, children⟩, next⟩ := r
    rfl
  unfold Tokens.finish
  rw [hdecl]
  split
  · rfl
  · exact C.withTrailing hlo hr

theorem isNamespace (hlo : lo ≤ i) (hi' : i < hi) (hs : i ≤ stop) :
    us.isNamespace (shift lo lo' i) stop' = ts.isNamespace i stop := by
  unfold Tokens.isNamespace
  rw [(C.alike i hlo hi').isKeyword_eq]
  cases hk : ts.isKeyword i "namespace" with
  | false => rfl
  | true =>
    obtain ⟨he, h₁, h₂⟩ := C.toWindow.next
      (C.toWindow.lt_of_not_firm (not_firm_of_isKeyword hk (by decide)) hi') hlo hi' hs
    simp only [he, (C.alike _ h₁ h₂).isName_eq, (C.alike _ h₁ h₂).isPunct_eq, C.lt_stop_iff h₁ h₂]

/-- Where a list ends, it ends. -/
theorem halts {p : Place} (h : ts.Halts p i stop) (hlo : lo ≤ i) (hi' : i < hi) :
    us.Halts p (shift lo lo' i) stop' := by
  obtain ⟨he, h₁, h₂⟩ := C.toWindow.significant hlo hi'
  intro hlt
  rw [he, C.lt_stop_iff h₁ h₂] at hlt
  rw [he, C.isNamespace h₁ h₂ (ts.significant_le ..)]
  exact h hlt

theorem settles_of_halts {p : Place} (h : ts.Halts p i stop) (hlo : lo ≤ i) (hi' : i < hi) :
    ts.Settles (ts.significant i stop) stop hi := by
  obtain ⟨-, h₁, h₂⟩ := C.toWindow.significant hlo hi'
  rcases Nat.lt_or_eq_of_le (ts.significant_le i stop) with hlt | he
  · have hkey := (Bool.and_eq_true_iff.1 (Bool.and_eq_true_iff.1 (h hlt).2).1).1
    exact settles_of_isKeyword hkey h₂
  · rw [he]
    exact settles_of_lt (Nat.le_refl _) (he ▸ h₂)

/-- If every entry is read where it is copied to, so is a list of them. -/
theorem items_of_entry {p : Place} {ns : List Node} {last : Nat} (h : ts.Items p stop i ns last)
    (hlo : lo ≤ i) (hl : last < hi) (hnext : ts.Settles (ts.significant last stop) stop hi)
    (hentry : ∀ start first r, lo ≤ start → start ≤ first → first < stop →
      ts.entry p start first stop = .ok r → r.2 ≤ last → ts.Settles first stop hi →
        us.entry p (shift lo lo' start) (shift lo lo' first) stop' = .ok (relocate lo lo' r)) :
    us.Items p stop' (shift lo lo' i) (Node.moveList (shift lo lo') ns) (shift lo lo' last) := by
  induction h with
  | nil => exact .nil
  | @cons i r ns last hs he h ih =>
    have hlt := lt_of_entry he hs
    have hle := ts.le_finish stop r
    have hlast := h.le
    have hfirst : i ≤ ts.significant i stop := le_firstFrom_of_lt hs
    obtain ⟨hf, h₁, h₂⟩ := C.toWindow.significant hlo (show i < hi by omega)
    have hstart := C.toWindow.leading hlo h₂
    have hlead := ts.le_leading hfirst
    have hsettles := Items.settles (.cons hs he h) hl hnext
    have hentry' := hentry _ _ r (Nat.le_trans hlo hlead) (ts.leading_le i _) hs he (by omega) hsettles
    have hfinish := C.finish (show lo ≤ r.2 by omega) (by omega)
    have hrest : us.Items p stop' (us.finish stop' (relocate lo lo' r)).2
        (Node.moveList (shift lo lo') ns) (shift lo lo' last) := by
      rw [hfinish]
      exact ih (by omega) hl hnext hentry
    rw [← hstart, ← hf] at hentry'
    have hcons := Items.cons (by rw [hf, C.lt_stop_iff h₁ h₂]; exact hs) hentry' hrest
    rw [hfinish] at hcons
    exact hcons

theorem members {ns : List Node} (h : ts.members i stop = .ok ns) (hlo : lo ≤ i)
    (hstop : stop < hi) (hle : i ≤ stop) (hsize : stop ≤ ts.size) (hend : ts.isPunct stop ';' = false) :
    us.members (shift lo lo' i) stop' = .ok (Node.moveList (shift lo lo') ns) := by
  obtain ⟨ms, last, rfl, hitems, hhalts⟩ := items_of_members h
  have hlast := hitems.le_stop hle hsize hend
  have hge := hitems.le
  have hitems' := C.items_of_entry hitems hlo (by omega)
    (C.settles_of_halts hhalts (by omega) (by omega)) fun start first r h₁ h₂ h₃ he hr hskip =>
      C.member he h₁ h₂ (Nat.le_of_lt h₃) (by omega) hskip
  rw [members_of_items hitems' (C.halts hhalts (by omega) (by omega)),
    C.closingComments (by omega) hstop, Node.moveList_append]

/-! Classes. -/

theorem classParents {nameAt : Nat} {list? : Option Bool} {bases interfaces : List Text}
    (h : ts.classParents nameAt stop list? i = .ok (bases, interfaces, j)) (hlo : lo ≤ i)
    (hj : j < hi) (nameAt' : Nat) : us.classParents nameAt' stop' list? (shift lo lo' i) =
      .ok (bases, interfaces, shift lo lo' j) := by
  have hle := le_of_classParents h
  have ha := C.alike i hlo (by omega)
  have hstep : ∀ {i}, i < stop → ts.significant (i + 1) stop ≤ j → hi ≤ stop → i + 1 < hi := by
    intro i hlt hle _
    have := ts.min_le_significant (i + 1) stop
    omega
  fun_induction Tokens.classParents ts nameAt stop list? i generalizing bases interfaces with
  | case1 list? i hopen =>
    cases h
    rw [Tokens.classParents, if_pos (by rw [ha.isPunct_eq]; exact hopen)]
  | case2 list? i hopen hlt next _ hk =>
    rename_i ih
    have hn := (Bool.and_eq_true_iff.1 hk).1
    have hnext := hstep hlt (le_of_classParents h)
    obtain ⟨he, h₁, h₂⟩ := C.toWindow.next hnext hlo (by omega) (Nat.le_of_lt hlt)
    rw [Tokens.classParents, if_neg (by rw [ha.isPunct_eq]; exact hopen),
      dif_pos ((C.lt_stop_iff hlo (by omega)).2 hlt), if_pos (by rw [ha.isKeyword_eq]; exact hk), he]
    exact ih h h₁ (le_of_classParents h) (C.alike _ h₁ h₂)
  | case3 list? i hopen hlt next _ hno hk =>
    rename_i ih
    have hn := (Bool.and_eq_true_iff.1 hk).1
    have hnext := hstep hlt (le_of_classParents h)
    obtain ⟨he, h₁, h₂⟩ := C.toWindow.next hnext hlo (by omega) (Nat.le_of_lt hlt)
    rw [Tokens.classParents, if_neg (by rw [ha.isPunct_eq]; exact hopen),
      dif_pos ((C.lt_stop_iff hlo (by omega)).2 hlt), if_neg (by rw [ha.isKeyword_eq]; exact hno),
      if_pos (by rw [ha.isKeyword_eq]; exact hk), he]
    exact ih h h₁ (le_of_classParents h) (C.alike _ h₁ h₂)
  | case4 => cases h
  | case5 i hopen hlt next _ hno hno' hn isInterface e hr =>
    rw [hr] at h
    cases h
  | case6 i hopen hlt next _ hno hno' hn bases' interfaces' k hr =>
    rename_i ih
    rw [hr] at h
    cases h
    have hnext := hstep hlt (le_of_classParents hr)
    obtain ⟨he, h₁, h₂⟩ := C.toWindow.next hnext hlo (by omega) (Nat.le_of_lt hlt)
    rw [Tokens.classParents, if_neg (by rw [ha.isPunct_eq]; exact hopen),
      dif_pos ((C.lt_stop_iff hlo (by omega)).2 hlt), if_neg (by rw [ha.isKeyword_eq]; exact hno),
      if_neg (by rw [ha.isKeyword_eq]; exact hno'), if_pos (by rw [ha.isName_eq]; exact hn), he,
      C.text_eq hlo (by omega)]
    have hrest : us.classParents nameAt' stop' (some true) (shift lo lo' (ts.significant (i + 1) stop)) =
      _ := ih hr h₁ (le_of_classParents hr) (C.alike _ h₁ h₂)
    rw [hrest]
    rfl
  | case7 i hopen hlt next _ hno hno' hn isInterface bases' interfaces' k hfalse hr =>
    rename_i ih
    rw [hr] at h
    simp only [hfalse] at h
    cases h
    have hnext := hstep hlt (le_of_classParents hr)
    obtain ⟨he, h₁, h₂⟩ := C.toWindow.next hnext hlo (by omega) (Nat.le_of_lt hlt)
    rw [Tokens.classParents, if_neg (by rw [ha.isPunct_eq]; exact hopen),
      dif_pos ((C.lt_stop_iff hlo (by omega)).2 hlt), if_neg (by rw [ha.isKeyword_eq]; exact hno),
      if_neg (by rw [ha.isKeyword_eq]; exact hno'), if_pos (by rw [ha.isName_eq]; exact hn), he,
      C.text_eq hlo (by omega)]
    have hrest : us.classParents nameAt' stop' (some isInterface)
      (shift lo lo' (ts.significant (i + 1) stop)) = _ :=
        ih hr h₁ (le_of_classParents hr) (C.alike _ h₁ h₂)
    rw [hrest]
    simp only [hfalse]
    rfl
  | case8 list? i hopen hlt next _ hno hno' hn hk =>
    rename_i ih
    have hnext := hstep hlt (le_of_classParents h)
    obtain ⟨he, h₁, h₂⟩ := C.toWindow.next hnext hlo (by omega) (Nat.le_of_lt hlt)
    rw [Tokens.classParents, if_neg (by rw [ha.isPunct_eq]; exact hopen),
      dif_pos ((C.lt_stop_iff hlo (by omega)).2 hlt), if_neg (by rw [ha.isKeyword_eq]; exact hno),
      if_neg (by rw [ha.isKeyword_eq]; exact hno'), if_neg (by rw [ha.isName_eq]; exact hn),
      if_pos (by rw [ha.isPunct_eq]; exact hk), he]
    exact ih h h₁ (le_of_classParents h) (C.alike _ h₁ h₂)
  | case9 => cases h
  | case10 => cases h

theorem classStart? {first : Nat} (hlo : lo ≤ first) (hf : first < hi) (hs : first ≤ stop)
    (hskip : ts.Settles first stop hi)
    {head : Nat} (ha : ts.skipAttributes first stop = .ok head) :
    us.classStart? (shift lo lo' first) stop' = (ts.classStart? first stop).map
      fun c => ⟨c.kind, c.modifiers, shift lo lo' c.keyword⟩ := by
  have hhi := hskip head ha
  obtain ⟨ha', hlo'⟩ := C.toWindow.skipAttributes ha hlo hf hs hhi
  have hhead := skipAttributes_le ha hs
  obtain ⟨hm, h₁, h₂⟩ := C.toWindow.modifiers classModifiers_subset hlo' hhi
  have hmle := ts.modifiers_le classModifiers hhead
  unfold Tokens.classStart?
  rw [ha, ha']
  dsimp only
  rw [hm]
  dsimp only
  generalize ts.modifiers classModifiers head stop = m at h₁ h₂ hmle ⊢
  rw [(C.alike _ h₁ h₂).isName_eq, C.text_eq h₁ h₂]
  cases hname : ts.isName m.2 with
  | false => rfl
  | true =>
    cases hkind : ClassKind.ofKeyword? (ts.text m.2) with
    | none => split <;> split <;> rfl
    | some kind =>
      obtain ⟨hn, h₃, h₄⟩ := C.toWindow.next
        (C.toWindow.lt_of_not_firm (not_firm_of_ofKeyword? hname hkind) h₂) h₁ h₂ hmle
      rw [hn, (C.alike _ h₃ h₄).isName_eq]
      split <;> rfl

theorem classDecl {start : Nat} {c : ClassStart} {r : Node × Nat}
    (h : ts.classDecl start c stop = .ok r) (hlo : lo ≤ start) (hs : start ≤ c.keyword)
    (hk : c.keyword ≤ stop) (hsize : stop ≤ ts.size) (hr : r.2 ≤ hi) :
    us.classDecl (shift lo lo' start) ⟨c.kind, c.modifiers, shift lo lo' c.keyword⟩ stop' =
      .ok (relocate lo lo' r) := by
  unfold Tokens.classDecl at h ⊢
  dsimp only at h ⊢
  split at h
  · cases h
  rename_i bases interfaces opening hp
  split at h
  · cases h
  rename_i closing hm
  split at h
  · cases h
  rename_i children hc
  cases h
  dsimp only at hr
  have hclose := (matching_closes (b := .curly) (classParents_opens hp) hm)
  have hbounds := matching_bounds hm
  have hle := le_of_classParents hp
  have hmin := ts.min_le_significant (c.keyword + 1) stop
  have hmin' := ts.min_le_significant (ts.significant (c.keyword + 1) stop + 1) stop
  obtain ⟨hn, h₁, h₂⟩ := C.toWindow.next (fun hs' => by omega) (show lo ≤ c.keyword by omega)
    (by omega) hk
  obtain ⟨hn', h₃, h₄⟩ := C.toWindow.next (fun hs' => by omega) h₁ h₂ (ts.significant_le ..)
  have hparents := C.classParents hp h₃ (by omega)
    (shift lo lo' (ts.significant (c.keyword + 1) stop))
  have C' := C.narrow (show lo ≤ closing by omega) (by omega) (Nat.le_of_lt hbounds.2)
  have hmembers := C'.members hc (by omega) (by omega) (by omega) (by omega)
    (not_isPunct_of_ne hclose.2 (by decide))
  have hopening : shift lo lo' (opening + 1) = _ := shift_succ (show lo ≤ opening by omega)
  have hclosing : shift lo lo' (closing + 1) = _ := shift_succ (show lo ≤ closing by omega)
  rw [hn, hn', hparents]
  dsimp only
  rw [C.toWindow.matching hm (show lo ≤ opening by omega) (by omega)]
  simp only [← hopening, ← hclosing, hmembers, C.text_eq h₁ h₂]
  rfl

/-- A declaration is read where it is copied to, if its attributes end in the stretch. -/
theorem declaration {start first : Nat} {r : Node × Nat}
    (h : ts.declaration start first stop = .ok r) (hlo : lo ≤ start) (hs : start ≤ first)
    (hf : first < stop) (hsize : stop ≤ ts.size) (hr : r.2 ≤ hi)
    (hskip : ts.Settles first stop hi) :
    us.declaration (shift lo lo' start) (shift lo lo' first) stop' = .ok (relocate lo lo' r) := by
  have hlt := lt_of_declaration h hf
  have hfirst : lo ≤ first := Nat.le_trans hlo hs
  have hf' : first < hi := Nat.lt_of_lt_of_le hlt hr
  unfold Tokens.declaration at h ⊢
  rw [(C.alike first hfirst hf').isKeyword_eq]
  split at h
  · rename_i hk
    rw [if_pos hk]
    exact C.importDecl h hlo hs (Bool.and_eq_true_iff.1 hk).1 hr
  rename_i hk
  rw [if_neg hk]
  obtain ⟨head, ha⟩ : ∃ head, ts.skipAttributes first stop = .ok head := by
    cases ha : ts.skipAttributes first stop with
    | ok head => exact ⟨head, rfl⟩
    | error e =>
      rw [Tokens.classStart?, ha] at h
      cases h
  have hhead := skipAttributes_le ha (Nat.le_of_lt hf)
  rw [C.classStart? hfirst hf' (Nat.le_of_lt hf) hskip ha]
  cases hc : ts.classStart? first stop with
  | some c =>
    have hkey := le_of_classStart? hc
    rw [hc] at h
    rw [Tokens.classStart?, ha] at hc
    dsimp only at hc
    split at hc
    · obtain ⟨kind, -, rfl⟩ := Option.map_eq_some_iff.1 hc
      exact C.classDecl h hlo (Nat.le_trans hs hkey) (ts.modifiers_le classModifiers hhead) hsize hr
    · cases hc
  | none =>
    rw [hc, ha] at h
    obtain ⟨ha', hlo'⟩ := C.toWindow.skipAttributes ha hfirst hf' (Nat.le_of_lt hf) (hskip head ha)
    rw [ha', Option.map_none]
    dsimp only
    rw [C.isBlock hlo' (hskip head ha)]
    exact C.verbatim h hlo hs hr

/-! Namespaces. -/

theorem entry_scope {braced : Bool} {start first : Nat} {r : Node × Nat}
    (h : ts.entry (.scope braced) start first stop = .ok r) (hlo : lo ≤ start) (hs : start ≤ first)
    (hf : first < stop) (hsize : stop ≤ ts.size) (hr : r.2 ≤ hi) (hskip : ts.Settles first stop hi) :
    us.entry (.scope braced) (shift lo lo' start) (shift lo lo' first) stop' =
      .ok (relocate lo lo' r) := by
  unfold entry at h ⊢
  dsimp only at h ⊢
  split at h
  · cases h
  rename_i hno
  have hlt := lt_of_declaration h hf
  rw [C.isNamespace (Nat.le_trans hlo hs) (by omega) (Nat.le_of_lt hf), if_neg hno]
  exact C.declaration h hlo hs hf hsize hr hskip

theorem declarations {braced : Bool} {ns : List Node} {last : Nat}
    (h : ts.declarations braced i stop = .ok (ns, last)) (hlo : lo ≤ i) (hl : last < hi)
    (hsize : stop ≤ ts.size) : us.declarations braced (shift lo lo' i) stop' =
      .ok (Node.moveList (shift lo lo') ns, shift lo lo' last) := by
  obtain ⟨hitems, hhalts⟩ := items_of_declarations h
  have hge := hitems.le
  exact declarations_of_items (C.items_of_entry hitems hlo hl
    (C.settles_of_halts hhalts (by omega) hl) fun start first r h₁ h₂ h₃ he hr hskip =>
      C.entry_scope he h₁ h₂ h₃ hsize (by omega) hskip) (C.halts hhalts (by omega) hl)

theorem scopeHead {keyword : Nat} (hlo : lo ≤ keyword) (hk : keyword < hi) (hs : keyword ≤ stop)
    (hlast : hi ≤ stop → (ts.scopeHead keyword stop).2 < hi) :
    us.scopeHead (shift lo lo' keyword) stop' =
        ((ts.scopeHead keyword stop).1, shift lo lo' (ts.scopeHead keyword stop).2) ∧
      lo ≤ (ts.scopeHead keyword stop).2 ∧ (ts.scopeHead keyword stop).2 < hi := by
  have hmin := ts.min_le_significant (keyword + 1) stop
  have hmin' := ts.min_le_significant (ts.significant (keyword + 1) stop + 1) stop
  have hle := ts.significant_le (keyword + 1) stop
  unfold Tokens.scopeHead at hlast ⊢
  dsimp only at hlast ⊢
  have hnext : hi ≤ stop → keyword + 1 < hi := by
    intro hs'
    have hend := hlast hs'
    split at hend
    · dsimp only at hend
      omega
    · dsimp only at hend
      omega
  obtain ⟨he, h₁, h₂⟩ := C.toWindow.next hnext hlo hk hs
  simp only [he, (C.alike _ h₁ h₂).isName_eq, C.text_eq h₁ h₂]
  split
  · rename_i hn
    rw [if_pos hn] at hlast
    obtain ⟨he', h₃, h₄⟩ := C.toWindow.next (fun hs' => by have := hlast hs'; omega) h₁ h₂ hle
    exact ⟨by rw [he'], h₃, h₄⟩
  · exact ⟨rfl, h₁, h₂⟩

/-- A namespace without braces must end in front of the end of the stretch: what follows ends it. -/
theorem namespaceDecl {start keyword : Nat} {r : Node × Nat}
    (h : ts.namespaceDecl start keyword stop = .ok r) (hlo : lo ≤ start) (hs : start ≤ keyword)
    (hk : keyword < stop) (hsize : stop ≤ ts.size) (hr : r.2 ≤ hi)
    (hopen : r.2 = hi → ∀ name?, r.1.decl ≠ .scope name? false) :
    us.namespaceDecl (shift lo lo' start) (shift lo lo' keyword) stop' = .ok (relocate lo lo' r) := by
  have hlt := lt_of_namespaceDecl h hk
  obtain ⟨hhead, h₁, h₂⟩ := C.scopeHead (show lo ≤ keyword by omega) (by omega) (Nat.le_of_lt hk)
    fun _ => Nat.lt_of_lt_of_le (scopeHead_lt_of_namespaceDecl h) hr
  have hpunct := (C.alike _ h₁ h₂).isPunct_eq
  rcases namespaceDecl_cases h with
    ⟨hsome, hsemi, children, hd, hr'⟩ | ⟨hbrace, closing, children, last, hm, hd, rfl⟩
  · have hnext : r.2 < hi := Nat.lt_of_le_of_ne hr fun he => hopen he _ (by rw [hr']; rfl)
    have hd' := C.declarations hd (Nat.le_succ_of_le h₁) hnext hsize
    rw [shift_succ h₁] at hd'
    rw [namespaceDecl_statement (by rw [hhead]; exact hsome) (by rw [hhead, hpunct]; exact hsemi)
      (by rw [hhead]; exact hd'), hhead, relocate, hr']
    simp only [Node.ofSource, Node.move, Origin.move, Anchor.move, Span.move, Option.map_some,
      shift_succ h₁]
  · dsimp only at hr
    have hbounds := matching_bounds hm
    have hclose := (matching_closes (b := .curly) hbrace hm).1
    have hlast := (siblings_declarations hd hclose (by omega)).2.1
    have C' := C.narrow (show lo ≤ closing by omega) hr (Nat.le_of_lt hbounds.2)
    have hd' := C'.declarations hd (Nat.le_succ_of_le h₁) (by omega) (by omega)
    rw [shift_succ h₁] at hd'
    rw [namespaceDecl_block (by rw [hhead, hpunct]; exact hbrace)
      (by rw [hhead]; exact C.toWindow.matching hm h₁ (by omega)) (by rw [hhead]; exact hd'), hhead,
      relocate]
    simp only [Node.ofSource, Node.move, Origin.move, Anchor.move, Span.move, Option.map_some,
      shift_succ h₁, shift_succ (show lo ≤ closing by omega)]

/-- An entry is read where it is copied to. -/
theorem entry {p : Place} {start first : Nat} {r : Node × Nat}
    (h : ts.entry p start first stop = .ok r) (hlo : lo ≤ start) (hs : start ≤ first)
    (hf : first < stop) (hsize : stop ≤ ts.size) (hr : r.2 ≤ hi) (hskip : ts.Settles first stop hi)
    (hopen : r.2 = hi → ∀ name?, r.1.decl ≠ .scope name? false) :
    us.entry p (shift lo lo' start) (shift lo lo' first) stop' = .ok (relocate lo lo' r) := by
  have hlt := lt_of_entry h hf
  cases p with
  | file =>
    unfold Tokens.entry at h ⊢
    simp only [C.isNamespace (Nat.le_trans hlo hs) (show first < hi by omega) (Nat.le_of_lt hf)] at h ⊢
    split at h
    · rename_i hn
      rw [if_pos hn]
      exact C.namespaceDecl h hlo hs hf hsize hr hopen
    · rename_i hn
      rw [if_neg hn]
      exact C.declaration h hlo hs hf hsize hr hskip
  | scope braced => exact C.entry_scope h hlo hs hf hsize hr hskip
  | members => exact C.member h hlo hs (Nat.le_of_lt hf) hr hskip

/-- A list of entries is read where it is copied to. -/
theorem items {p : Place} {ns : List Node} {last : Nat} (h : ts.Items p stop i ns last)
    (hlo : lo ≤ i) (hl : last < hi) (hsize : stop ≤ ts.size)
    (hnext : ts.Settles (ts.significant last stop) stop hi) :
    us.Items p stop' (shift lo lo' i) (Node.moveList (shift lo lo') ns) (shift lo lo' last) :=
  C.items_of_entry h hlo hl hnext fun _ _ _ h₁ h₂ h₃ he hr hskip =>
    C.entry he h₁ h₂ h₃ hsize (by omega) hskip fun h => by omega

end Copy

end Tokens
end PhpGraft
