import PhpGraft.Proofs.Indentation
import PhpGraft.Proofs.Steps

/-!
Code keeps its tokens when the white space around its line breaks changes. Between two tokens, at
the end of a line comment or inside a comment, a run of white space that holds a line break may
become any other one that does, and white space at the very end may go.
-/
namespace PhpGraft

namespace Lexer

/-- `t` spells the code with other white space around its line breaks. Each character of the code
comes with whether it is quoted. -/
inductive Respaced : List (Char × Bool) → Text → Prop
  | done {w : Text} : (∀ c ∈ w, isSpace c = true) → Respaced (plain w) []
  | keep {c b m t} : Respaced m t → Respaced ((c, b) :: m) (c :: t)
  | run {w v t : Text} {m} : (∀ c ∈ w, isSpace c = true) → (∀ c ∈ v, isSpace c = true) →
      '\n' ∈ w → '\n' ∈ v → Respaced m t → Respaced (plain w ++ m) (v ++ t)

variable {m R : List (Char × Bool)} {u v w X : Text} {c : Char} {b : Bool}

theorem isStop_of_isSpace (h : isSpace c = true) : isStop c = true := by simp [isStop, h]

theorem stopped_of_space (hw : ∀ c ∈ w, isSpace c = true) : Stopped w :=
  fun c hc => isStop_of_isSpace (hw c (List.mem_of_head? hc))

theorem plain_eq_append {a : List (Char × Bool)} (h : plain w = a ++ R) :
    ∃ x y, w = x ++ y ∧ a = plain x ∧ R = plain y := by
  obtain ⟨x, y, rfl, rfl, rfl⟩ := List.map_eq_append_iff.1 h
  exact ⟨x, y, rfl, rfl, rfl⟩

theorem Respaced.nil : Respaced [] [] := .done (w := []) nofun

theorem Respaced.of_nil (h : Respaced [] X) : X = [] := by
  generalize hm : ([] : List (Char × Bool)) = m at h
  cases h with
  | done => rfl
  | keep => cases hm
  | run _ _ hn => 
    rw [List.map_eq_nil_iff.1 (List.append_eq_nil_iff.1 hm.symm).1] at hn
    cases hn

/-- Where a text begins with a kept character or both texts begin with what ends tokens. -/
theorem Respaced.first (h : Respaced m X) : Stopped (m.map Prod.fst) ∧ Stopped X ∨
    ∃ c b n t, m = (c, b) :: n ∧ X = c :: t ∧ Respaced n t := by
  cases h with
  | done hw =>
    rw [plain_fst]
    exact .inl ⟨stopped_of_space hw, nofun⟩
  | keep h => exact .inr ⟨_, _, _, _, rfl, rfl, h⟩
  | @run w w' t m hw hw' hn hn' h =>
    obtain ⟨c, w, rfl⟩ := List.exists_cons_of_ne_nil (List.ne_nil_of_mem hn)
    obtain ⟨c', w', rfl⟩ := List.exists_cons_of_ne_nil (List.ne_nil_of_mem hn')
    refine .inl ⟨?_, ?_⟩
    · rintro d ⟨⟩
      exact isStop_of_isSpace (hw _ List.mem_cons_self)
    · rintro d ⟨⟩
      exact isStop_of_isSpace (hw' _ List.mem_cons_self)

theorem Respaced.head (h : Respaced m X) :
    Stopped (m.map Prod.fst) ∧ Stopped X ∨ (m.map Prod.fst).head? = X.head? := by
  rcases h.first with h | ⟨c, b, n, t, rfl, rfl, -⟩
  · exact .inl h
  · exact .inr rfl

theorem Respaced.similar (h : Respaced m X) : Similar (m.map Prod.fst) X := by
  rcases h.first with ⟨hm, hX⟩ | ⟨c, b, n, t, rfl, rfl, hn⟩
  · exact .stop hm hX
  · exact .cons fun _ => hn.head

/-- A character that is no white space, or one that is quoted, is kept. -/
theorem Respaced.kept (h : Respaced ((c, b) :: m) X) (hk : isSpace c = false ∨ b = true) :
    ∃ t, X = c :: t ∧ Respaced m t := by
  have hno : ∀ {w : Text} {n}, (∀ c ∈ w, isSpace c = true) → (c, b) :: m = plain w ++ n → w = [] := by
    intro w n hw heq
    cases w with
    | nil => rfl
    | cons d w =>
      cases heq
      rw [hw _ List.mem_cons_self] at hk
      exact hk.elim nofun nofun
  generalize hm : (c, b) :: m = n at h
  cases h with
  | done hw => 
    rw [hno hw (hm.trans (List.append_nil _).symm)] at hm
    cases hm
  | keep h =>
    cases hm
    exact ⟨_, rfl, h⟩
  | run hw _ hn =>
    rw [hno hw hm] at hn
    cases hn

theorem Respaced.kept_append {v : List (Char × Bool)} (h : Respaced (v ++ R) X)
    (hk : ∀ p ∈ v, isSpace p.1 = false ∨ p.2 = true) :
    ∃ t, X = v.map Prod.fst ++ t ∧ Respaced R t := by
  induction v generalizing X with
  | nil => exact ⟨X, rfl, h⟩
  | cons p v ih =>
    obtain ⟨hp, hv⟩ := List.forall_mem_cons.1 hk
    obtain ⟨t, rfl, ht⟩ := Respaced.kept h hp
    obtain ⟨s, rfl, hs⟩ := ih ht hv
    exact ⟨s, rfl, hs⟩

theorem Respaced.keep_append (h : Respaced m X) (a : List (Char × Bool)) :
    Respaced (a ++ m) (a.map Prod.fst ++ X) := by
  induction a with
  | nil => exact h
  | cons p a ih => exact ih.keep

/-- White space in front of a line break may go. -/
theorem Respaced.skip (h : Respaced (('\n', false) :: m) X) (hw : ∀ c ∈ w, isSpace c = true) :
    Respaced (plain w ++ ('\n', false) :: m) X := by
  generalize hn : ('\n', false) :: m = n at h
  cases h with
  | @done w' hw' =>
    rw [← plain_append]
    exact .done fun c hc => (List.mem_append.1 hc).elim (hw c) (hw' c)
  | @keep c b m t h =>
    cases hn
    have := Respaced.run (w := w ++ ['\n']) (v := ['\n'])
      (fun c hc => (List.mem_append.1 hc).elim (hw c) fun hc => by rw [List.mem_singleton.1 hc]; rfl)
      (List.forall_mem_singleton.2 rfl) (by simp) (by simp) h
    rw [plain_append, List.append_assoc] at this
    exact this
  | @run w₁ w' t m hw₁ hw' h₁ h' h =>
    rw [← List.append_assoc, ← plain_append]
    exact .run (fun c hc => (List.mem_append.1 hc).elim (hw c) (hw₁ c)) hw'
      (List.mem_append_right _ h₁) h' h

/-! Each rule reads what became of a token as it read the token. -/

/-- One of two stretches of unquoted code that begin alike goes on where the other ends. -/
theorem plain_append_cases (h : plain w ++ m = plain v ++ R) :
    (∃ x, v = w ++ x ∧ m = plain x ++ R) ∨ ∃ c x, w = v ++ c :: x ∧ R = plain (c :: x) ++ m := by
  induction w generalizing v with
  | nil => exact .inl ⟨v, rfl, h⟩
  | cons c w ih =>
    cases v with
    | nil => exact .inr ⟨c, w, rfl, h.symm⟩
    | cons d v =>
      obtain ⟨hcd, htail⟩ := List.cons.inj h
      obtain rfl : c = d := (Prod.mk.inj hcd).1
      rcases ih htail with ⟨x, rfl, hm⟩ | ⟨d, x, rfl, hR⟩
      · exact .inl ⟨x, rfl, hm⟩
      · exact .inr ⟨d, x, rfl, hR⟩

/-- White space up to the next token stays white space, or goes at the end. -/
theorem Respaced.space (h : Respaced m X) (hm : m = plain v ++ R) (hv : ∀ c ∈ v, isSpace c = true)
    (hR : ∀ p, R.head? = some p → isSpace p.1 = false) :
    ∃ w Y, X = w ++ Y ∧ (∀ c ∈ w, isSpace c = true) ∧ Respaced R Y := by
  induction h generalizing v with
  | @done w hw =>
    obtain ⟨x, y, rfl, -, rfl⟩ := plain_eq_append hm
    exact ⟨[], [], rfl, nofun, .done fun c hc => hw c (List.mem_append_right _ hc)⟩
  | @keep c b m t h ih =>
    cases v with
    | nil =>
      obtain rfl : (c, b) :: m = R := hm
      exact ⟨[], c :: t, rfl, nofun, h.keep⟩
    | cons d v =>
      obtain ⟨hd, rfl⟩ := List.cons.inj hm
      cases hd
      obtain ⟨hc, hv⟩ := List.forall_mem_cons.1 hv
      obtain ⟨w, Y, rfl, hw, hY⟩ := ih rfl hv
      exact ⟨c :: w, Y, rfl, List.forall_mem_cons.2 ⟨hc, hw⟩, hY⟩
  | @run w w' t m hw hw' hn hn' h ih =>
    rcases plain_append_cases hm with ⟨x, rfl, rfl⟩ | ⟨c, x, rfl, rfl⟩
    · obtain ⟨u, Y, rfl, hu, hY⟩ := ih rfl fun c hc => hv c (List.mem_append_right _ hc)
      exact ⟨w' ++ u, Y, (List.append_assoc ..).symm,
        fun c hc => (List.mem_append.1 hc).elim (hw' c) (hu c), hY⟩
    · have := hR _ rfl
      rw [hw c (by simp)] at this
      cases this

theorem Respaced.head_not_space (h : Respaced R X)
    (hR : ∀ p, R.head? = some p → isSpace p.1 = false) : X.head?.any isSpace = false := by
  cases R with
  | nil =>
    rw [h.of_nil]
    rfl
  | cons p R =>
    obtain ⟨t, rfl, -⟩ := h.kept (.inl (hR p rfl))
    exact hR p rfl

/-- Code up to a character that is kept. -/
theorem Respaced.cut (h : Respaced m X) (hm : m = plain (v ++ [c]) ++ R) (hc : isSpace c = false) :
    ∃ w Y, X = w ++ Y ∧ Respaced (plain (v ++ [c])) w ∧ Respaced R Y := by
  induction h generalizing v with
  | @done w hw =>
    obtain ⟨x, y, rfl, hx, -⟩ := plain_eq_append hm
    have : (c, false) ∈ plain x := hx ▸ List.mem_map_of_mem (by simp)
    obtain ⟨d, hd, hdc⟩ := List.mem_map.1 this
    cases hdc
    rw [hw c (List.mem_append_left _ hd)] at hc
    cases hc
  | @keep d b m t h ih =>
    cases v with
    | nil =>
      obtain ⟨hd, rfl⟩ := List.cons.inj hm
      cases hd
      exact ⟨[c], t, rfl, .keep .nil, h⟩
    | cons e v =>
      obtain ⟨hd, rfl⟩ := List.cons.inj hm
      cases hd
      obtain ⟨w, Y, rfl, hw, hY⟩ := ih rfl
      exact ⟨d :: w, Y, rfl, hw.keep, hY⟩
  | @run w w' t m hw hw' hn hn' h ih =>
    have hno : ∀ x, w ≠ v ++ c :: x := by
      rintro x rfl
      rw [hw c (by simp)] at hc
      cases hc
    rcases plain_append_cases hm with ⟨x, hx, rfl⟩ | ⟨d, x, rfl, -⟩
    · rcases List.eq_nil_or_concat x with rfl | ⟨x, d, rfl⟩
      · exact absurd (by simpa using hx.symm) (hno [])
      · rw [List.concat_eq_append, ← List.append_assoc] at hx
        obtain ⟨rfl, hd⟩ := List.append_inj' hx rfl
        cases hd
        obtain ⟨u, Y, rfl, hu, hY⟩ := ih (v := x) (by rw [List.concat_eq_append])
        refine ⟨w' ++ u, Y, (List.append_assoc ..).symm, ?_, hY⟩
        rw [List.append_assoc, plain_append]
        exact .run hw hw' hn hn' hu
    · exact absurd (by simp) (hno (d :: x))

theorem commentSize?_space (hw : ∀ c ∈ w, isSpace c = true) (t : Text) :
    commentSize? (w ++ t) = (commentSize? t).map (· + w.length) := by
  induction w with
  | nil => simp
  | cons c w ih =>
    obtain ⟨hc, hw⟩ := List.forall_mem_cons.1 hw
    have hne : c ≠ '*' := by
      rintro rfl
      cases hc
    rw [List.cons_append, commentSize?_of_ne hne, ih hw, Option.map_map]
    rfl

theorem Respaced.commentSize?_eq (h : Respaced m X)
    (hm : commentSize? (m.map Prod.fst) = some m.length) : commentSize? X = some X.length := by
  induction h with
  | @done w hw =>
    have := commentSize?_space hw []
    rw [List.append_nil, ← plain_fst w, hm] at this
    cases this
  | @keep c b m t h ih =>
    by_cases hend : c = '*' ∧ (m.map Prod.fst).head? = some '/'
    · obtain ⟨rfl, hd⟩ := hend
      cases m with
      | nil => cases hd
      | cons p m =>
        obtain ⟨d, b⟩ := p
        cases hd
        obtain ⟨t, rfl, ht⟩ := h.kept (.inl rfl)
        have hlen : 2 = m.length + 1 + 1 := Option.some.inj hm
        obtain rfl : m = [] := List.length_eq_zero_iff.1 (by omega)
        rw [ht.of_nil]
        rfl
    · exact commentSize?_step hend h.head hm ih
  | @run w w' t m hw hw' _ _ h ih =>
    rw [List.map_append, plain_fst, commentSize?_space hw] at hm
    obtain ⟨n, hn, hlen⟩ := Option.map_eq_some_iff.1 hm
    have hn := ih (hn.trans (congrArg some (by simp [plain] at hlen; omega)))
    rw [commentSize?_space hw', hn, List.length_append]
    simp [Nat.add_comm]

theorem newline_not_mem (h : lineCommentSize (u ++ v) = u.length) : '\n' ∉ u := by
  induction u with
  | nil => nofun
  | cons c u ih =>
    obtain ⟨hn, -, h⟩ := of_lineCommentSize_succ h
    rw [List.mem_cons, not_or]
    exact ⟨Ne.symm hn, ih h⟩

theorem lineCommentSize_blank (hw : ∀ c ∈ w, isSpace c = true) (hn : '\n' ∉ w) (t : Text) :
    lineCommentSize (w ++ '\n' :: t) = w.length := by
  induction w with
  | nil => rfl
  | cons c w ih =>
    obtain ⟨hc, hw⟩ := List.forall_mem_cons.1 hw
    rw [List.mem_cons, not_or] at hn
    rw [List.cons_append, lineCommentSize_cons (Ne.symm hn.1), ih hw hn.2, List.length_cons]
    rintro s rfl
    cases hc

/-- The blanks at the end of a line comment may go, and others may come there. -/
theorem Respaced.lineComment (h : Respaced m X) (hm : m = plain u ++ R)
    (hR : R = [] ∨ R.head? = some ('\n', false))
    (hu : lineCommentSize (m.map Prod.fst) = u.length) :
    ∃ w Y, X = w ++ Y ∧ Respaced R Y ∧ lineCommentSize (w ++ Y) = w.length := by
  induction h generalizing u with
  | @done w hw =>
    obtain ⟨x, y, rfl, -, rfl⟩ := plain_eq_append hm
    exact ⟨[], [], rfl, .done fun c hc => hw c (List.mem_append_right _ hc), rfl⟩
  | @keep c b m t h ih =>
    cases u with
    | nil =>
      obtain rfl : (c, b) :: m = R := hm
      cases hR.resolve_left nofun
      exact ⟨[], '\n' :: t, rfl, h.keep, rfl⟩
    | cons d u =>
      obtain ⟨hd, rfl⟩ := List.cons.inj hm
      cases hd
      obtain ⟨hn, hc, hu⟩ := of_lineCommentSize_succ hu
      obtain ⟨w, Y, rfl, hY, hw⟩ := ih rfl hu
      refine ⟨c :: w, Y, rfl, hY, ?_⟩
      rw [List.cons_append, lineCommentSize_cons hn, hw]
      · rfl
      · intro s hq hX
        rcases h.head with ⟨-, hXs⟩ | hhead
        · exact absurd (hXs '>' (by rw [hX]; rfl)) (by decide)
        · rw [hX] at hhead
          obtain ⟨v, hv⟩ := List.head?_eq_some_iff.1 hhead
          exact hc v hq hv
  | @run w w' t m hw hw' hn hn' h =>
    rw [hm, List.map_append, plain_fst] at hu
    rcases plain_append_cases hm with ⟨x, rfl, -⟩ | ⟨c, x, rfl, rfl⟩
    · exact absurd (List.mem_append_left _ hn) (newline_not_mem hu)
    · cases hR.resolve_left nofun
      obtain ⟨a, r, rfl, ha⟩ := List.eq_append_cons_of_mem hn'
      have hspace : ∀ c ∈ a, isSpace c = true := fun c hc => hw' c (List.mem_append_left _ hc)
      refine ⟨a, '\n' :: r ++ t, by simp, ?_, lineCommentSize_blank hspace ha _⟩
      exact .run (fun c hc => hw c (List.mem_append_right _ hc))
        (fun c hc => hw' c (List.mem_append_right _ hc)) List.mem_cons_self List.mem_cons_self h

/-! Tokens. -/

/-- The tokens that are neither white space nor comments. -/
def essence (ts : List Token) : List Token := ts.filter (!·.kind.isTrivia)

variable {k : TokenKind} {ts us : List Token} {s : Text}

theorem essence_cons_of_trivia (hk : k.isTrivia = true) (u : Text) (ts : List Token) :
    essence (⟨k, u⟩ :: ts) = essence ts :=
  List.filter_cons_of_neg (by simp [hk])

theorem essence_cons_congr (x : Token) (h : essence us = essence ts) :
    essence (x :: us) = essence (x :: ts) := by
  unfold essence at h ⊢
  rw [List.filter_cons, List.filter_cons, h]

theorem Reads.cons_code (hs : scanCode c (u ++ v) = .ok (k, u.length)) (hk : k ≠ .closeTag)
    (h : Reads .code us v) : Reads .code (⟨k, c :: u⟩ :: us) (c :: (u ++ v)) :=
  .cons hs (((rule_of_scanCode hs).after hk).symm ▸ h)

/-- `X` is read into the tokens `ts`, but for white space and comments. -/
def Rereads (ts : List Token) (X : Text) : Prop :=
  ∃ us, Reads .code us X ∧ essence us = essence ts

theorem Rereads.trivia (h : Rereads ts v) (hs : scanCode c (u ++ v) = .ok (k, u.length))
    (hk : k.isTrivia = true) {x : Token} (hx : x.kind.isTrivia = true) :
    Rereads (x :: ts) (c :: (u ++ v)) := by
  obtain ⟨us, hus, hess⟩ := h
  refine ⟨_, hus.cons_code hs (by rintro rfl; cases hk), ?_⟩
  rw [essence_cons_of_trivia hk, hess, essence_cons_of_trivia hx]

theorem Respaced.whitespace (hm : Respaced (plain v ++ flags ts) X) (hv : ∀ d ∈ v, isSpace d = true)
    (hR : ∀ p, (flags ts).head? = some p → isSpace p.1 = false)
    (hrest : ∀ Y, Respaced (flags ts) Y → Rereads ts Y) : Rereads (⟨.whitespace, v⟩ :: ts) X := by
  obtain ⟨w, Y, rfl, hw, hY⟩ := hm.space rfl hv hR
  cases w with
  | nil =>
    obtain ⟨us, hus, hess⟩ := hrest Y hY
    exact ⟨us, hus, hess.trans (essence_cons_of_trivia rfl v ts).symm⟩
  | cons d w =>
    obtain ⟨hd, hw⟩ := List.forall_mem_cons.1 hw
    refine (hrest Y hY).trivia (k := .whitespace) ?_ rfl rfl
    rw [(Rule.whitespace hd).scanCode_eq, takeWhile_append_of_head hw (hY.head_not_space hR)]

theorem Respaced.comment {t : Text} (hm : Respaced (plain ('/' :: '*' :: v) ++ flags ts) X)
    (hv : commentSize? (v ++ t) = some v.length) (hk : k.isComment = true)
    (hrest : ∀ Y, Respaced (flags ts) Y → Rereads ts Y) :
    Rereads (⟨k, '/' :: '*' :: v⟩ :: ts) X := by
  have hlast : v.getLast? = some '/' := by
    have := getLast?_commentSize? hv
    rwa [List.take_left] at this
  obtain ⟨v₁, rfl⟩ := List.getLast?_eq_some_iff.1 hlast
  obtain ⟨W, Y, rfl, hW, hY⟩ := hm.cut (v := '/' :: '*' :: v₁) rfl rfl
  obtain ⟨w, rfl, hw⟩ : ∃ w, W = ['/', '*'] ++ w ∧ Respaced (plain (v₁ ++ ['/'])) w :=
    Respaced.kept_append (v := plain ['/', '*']) hW (by simp [plain, isSpace])
  have halone := commentSize?_append hv []
  rw [List.append_nil] at halone
  have hsize := hw.commentSize?_eq (by rw [plain_fst]; simpa [plain] using halone)
  have hwY := commentSize?_append (r := []) (by rwa [List.append_nil]) Y
  have hscan := (Rule.comment (c := '/') (t := '*' :: (w ++ Y)) ⟨rfl, rfl⟩ hwY).scanCode_eq
  rw [Nat.add_comm] at hscan
  refine (hrest Y hY).trivia (u := '*' :: w) hscan ?_ (Bool.or_eq_true_iff.2 (.inr hk))
  split <;> rfl

theorem Respaced.line (hm : Respaced (plain (c :: u) ++ flags ts) X)
    (hc : (c = '/' ∧ (u ++ (flags ts).map Prod.fst).startsWith ['/']) ∨
      (c = '#' ∧ !(u ++ (flags ts).map Prod.fst).startsWith ['[']))
    (hR : flags ts = [] ∨ (flags ts).head? = some ('\n', false))
    (hu : lineCommentSize (u ++ (flags ts).map Prod.fst) = u.length)
    (hrest : ∀ Y, Respaced (flags ts) Y → Rereads ts Y) :
    Rereads (⟨.lineComment, c :: u⟩ :: ts) X := by
  have hcs : isSpace c = false := by rcases hc with ⟨rfl, -⟩ | ⟨rfl, -⟩ <;> rfl
  obtain ⟨t, rfl, ht⟩ : ∃ t, X = c :: t ∧ Respaced (plain u ++ flags ts) t := hm.kept (.inl hcs)
  have hfst : (plain u ++ flags ts).map Prod.fst = u ++ (flags ts).map Prod.fst := by
    rw [List.map_append, plain_fst]
  have hsim := ht.similar
  rw [hfst] at hsim
  obtain ⟨w, Y, rfl, hY, hsize⟩ := ht.lineComment rfl hR (by rw [hfst, hu])
  have hstart : ∀ q, isStop q = false →
      (w ++ Y).startsWith [q] = (u ++ (flags ts).map Prod.fst).startsWith [q] :=
    fun q hq => hsim.startsWith hq []
  rw [← hstart '/' rfl, ← hstart '[' rfl] at hc
  have hscan := (Rule.lineComment hc).scanCode_eq
  rw [hsize] at hscan
  exact (hrest Y hY).trivia (k := .lineComment) hscan rfl rfl

/-- What became of a token is read as the token or, if it was no code, as something that is none. -/
theorem Rule.respaced (h : Rule c (u ++ Token.spell ts) k u.length)
    (hts : Reads .code ts (Token.spell ts)) (hm : Respaced (flags (⟨k, c :: u⟩ :: ts)) X)
    (hk : k ≠ .closeTag) (hh : k ≠ .heredoc) (hclose : ∀ x ∈ ts, x.kind ≠ .closeTag)
    (hrest : ∀ Y, Respaced (flags ts) Y → Rereads ts Y) : Rereads (⟨k, c :: u⟩ :: ts) X := by
  rw [flags_cons] at hm
  by_cases hplain : k ≠ .whitespace ∧ k.isComment = false
  · obtain ⟨hw, hc⟩ := hplain
    obtain ⟨Y, rfl, hY⟩ := hm.kept_append (h.unspaced hw hc hh hk)
    rw [List.map_map, show Prod.fst ∘ (fun c : Char => (c, k == .string)) = id from rfl, List.map_id]
    obtain ⟨us, hus, hess⟩ := hrest Y hY
    refine ⟨⟨k, c :: u⟩ :: us, hus.cons_code ?_ hk, essence_cons_congr _ hess⟩
    refine (h.similar (flags_fst ts ▸ hY.similar) (fun hk => absurd hk hw) ?_
      (fun h => absurd h hk)).scanCode_eq
    rintro rfl
    cases hc
  · have hend := h.endsLine
    rw [← flags_fst] at h hend
    generalize hn : u.length = n at h
    cases h with
    | whitespace hs =>
      obtain ⟨hu, hhead⟩ := takeWhile_append_eq hn
      refine hm.whitespace (List.forall_mem_cons.2 ⟨hs, hu⟩) (fun p hp => ?_) hrest
      rw [List.head?_map, hp] at hhead
      exact hhead
    | @comment m hc hsize =>
      obtain ⟨rfl, hstar⟩ := hc
      cases u with
      | nil =>
        rw [List.length_nil] at hn
        omega
      | cons d v =>
        obtain ⟨_, hv⟩ := List.isPrefixOf_iff_prefix.1 hstar
        obtain rfl : '*' = d := (List.cons.inj hv).1
        rw [List.length_cons] at hn
        have hsize' := hsize.trans (congrArg some (show m = v.length by omega))
        refine Respaced.comment ?_ hsize' (by split <;> rfl) hrest
        split at hm <;> exact hm
    | lineComment hc =>
      refine hm.line hc ?_ hn.symm hrest
      rcases hend rfl with hnil | ⟨s, hs⟩ | ⟨s, hs⟩
      · exact .inl (List.map_eq_nil_iff.1 hnil)
      · rw [flags_fst] at hs
        exact .inr (Reads.head_newline (hs ▸ hts))
      · rw [flags_fst] at hs
        obtain ⟨x, hx, hkind⟩ := Reads.head_closeTag (hs ▸ hts)
        exact absurd hkind (hclose x hx)
    | _ => exact absurd (by decide) hplain

theorem Reads.respaced (h : Reads .code ts s) (hm : Respaced (flags ts) X)
    (hk : ∀ x ∈ ts, x.kind ≠ .closeTag ∧ x.kind ≠ .heredoc) : Rereads ts X := by
  induction ts generalizing s X with
  | nil =>
    rw [hm.of_nil]
    exact ⟨[], .nil, rfl⟩
  | cons x ts ih =>
    obtain ⟨⟨hx, hx'⟩, hts⟩ := List.forall_mem_cons.1 hk
    cases h with
    | @cons _ c u t k _ hs hr =>
      obtain rfl : t = Token.spell ts := hr.spell.symm
      have hrule := rule_of_scanCode hs
      rw [hrule.after hx] at hr
      exact hrule.respaced hr hm hx hx' (fun y hy => (hts y hy).1) fun Y hY => ih hr hY hts

/-- Code with other white space around its line breaks is read into the same tokens. -/
theorem Rereads.respaced (h : Rereads ts s) (hm : ∀ us, Reads .code us s → Respaced (flags us) X)
    (hk : ∀ x ∈ ts, x.kind ≠ .closeTag ∧ x.kind ≠ .heredoc) : Rereads ts X := by
  obtain ⟨us, hus, hess⟩ := h
  have hkinds : ∀ x ∈ us, x.kind ≠ .closeTag ∧ x.kind ≠ .heredoc := by
    intro x hx
    by_cases hxk : x.kind.isTrivia = true
    · constructor <;> intro h <;> rw [h] at hxk <;> cases hxk
    · have hmem : x ∈ essence us := List.mem_filter.2 ⟨hx, by simpa using hxk⟩
      rw [hess] at hmem
      exact hk x (List.mem_filter.1 hmem).1
  obtain ⟨vs, hvs, hess'⟩ := hus.respaced (hm us hus) hkinds
  exact ⟨vs, hvs, hess'.trans hess⟩

/-! Trimming and re-indenting. -/

theorem isSpace_text (e : LineEnding) : ∀ c ∈ e.text, isSpace c = true := by
  cases e <;> exact List.all_eq_true.1 rfl

theorem newline_mem (e : LineEnding) : '\n' ∈ e.text := by
  cases e <;> decide

theorem isSpace_of_isIndent (h : isIndent c = true) : isSpace c = true :=
  isSpace_of_isLayout (isLayout_of_isIndent h)

theorem Respaced.reflows (e : LineEnding) {indent : Text}
    (hi : ∀ c ∈ indent, isIndent c = true) :
    Line.Reflows isSpace isSpace e indent Respaced where
  blank _ h := h
  keep := .keep
  skip hw h := h.skip fun c hc => (hw c hc).1
  feed h := .run (w := ['\n']) (List.forall_mem_singleton.2 rfl) (isSpace_text e)
    List.mem_cons_self (newline_mem e) h
  shift {i m t} hi' h := by
    rw [← List.append_assoc]
    exact .run (w := '\n' :: i) (List.forall_mem_cons.2 ⟨rfl, hi'⟩)
      (fun c hc => (List.mem_append.1 hc).elim (isSpace_text e c)
        fun hc => isSpace_of_isIndent (hi c hc))
      List.mem_cons_self (List.mem_append_left _ (newline_mem e)) h

/-- White space in front of code is a token of its own. -/
theorem Reads.drop_space (h : Reads .code ts (w ++ s)) (hw : ∀ c ∈ w, isSpace c = true)
    (hs : ∀ c, s.head? = some c → isSpace c = false) : Rereads ts s := by
  cases w with
  | nil => exact ⟨ts, h, rfl⟩
  | cons c w =>
    obtain ⟨hc, hw⟩ := List.forall_mem_cons.1 hw
    generalize ht : c :: w ++ s = t at h
    cases h with
    | nil => cases ht
    | @cons _ d u r k ts hscan hr =>
      obtain ⟨rfl, htail⟩ : c = d ∧ w ++ s = u ++ r := List.cons.inj ht
      have hhead : s.head?.any isSpace = false := by
        cases s with
        | nil => rfl
        | cons c s => exact hs c rfl
      have heq := hscan.symm.trans (Rule.whitespace hc).scanCode_eq
      rw [← htail, takeWhile_append_of_head hw hhead] at heq
      obtain ⟨rfl, hlen⟩ := Prod.mk.inj (Except.ok.inj heq)
      obtain ⟨rfl, rfl⟩ := List.append_inj htail hlen.symm
      exact ⟨ts, hr, (essence_cons_of_trivia rfl _ ts).symm⟩

/-- White space at the end of code is not quoted. -/
theorem Reads.last_unquoted {m : Mode} (h : Reads m ts s) {p : Char × Bool}
    (hp : (flags ts).getLast? = some p) (hw : isWhite p.1 = true) : p.2 = false := by
  induction h with
  | nil => cases hp
  | @cons m c u t k ts hs hr ih =>
    rw [flags_cons, List.getLast?_append] at hp
    cases hlast : (flags ts).getLast? with
    | some p' =>
      rw [hlast] at hp
      exact ih (hlast.trans hp)
    | none =>
      rw [hlast, Option.none_or, List.getLast?_map] at hp
      obtain ⟨d, hd, rfl⟩ := Option.map_eq_some_iff.1 hp
      refine beq_eq_false_iff_ne.2 fun hk => ?_
      obtain ⟨hcw, hcl⟩ := scan_string hs hk
      rw [Option.some.inj (hd.symm.trans hcl), hcw] at hw
      cases hw

/-- White space at the end of code may go. -/
theorem Reads.respaced_append (h : Reads .code ts (s ++ w)) (hw : ∀ c ∈ w, isSpace c = true) :
    Respaced (flags ts) s := by
  have hfst : (flags ts).map Prod.fst = s ++ w := by rw [flags_fst, h.spell]
  obtain ⟨a, b, hab, rfl, rfl⟩ := List.map_eq_append_iff.1 hfst
  have hwhite : ∀ p ∈ b, isWhite p.1 = true :=
    fun p hp => isWhite_of_isSpace (hw p.1 (List.mem_map_of_mem hp))
  have hplain : b = plain (b.map Prod.fst) := by
    refine Line.eq_plain ?_
    rcases List.eq_nil_or_concat b with rfl | ⟨b, p, rfl⟩
    · nofun
    · rw [List.concat_eq_append] at *
      obtain ⟨c, f⟩ := p
      have hf : f = false := h.last_unquoted (p := (c, f)) (by rw [hab]; simp) (hwhite _ (by simp))
      have hc := h.coherent
      rw [hab] at hc
      have hbefore := hc.of_append.before (hwhite (c, f) (by simp)) fun p hp => hwhite p (by simp [hp])
      exact fun p hp => (List.mem_append.1 hp).elim (fun hp => (hbefore p hp).trans hf)
        fun hp => by rw [List.mem_singleton.1 hp, hf]
  rw [hab, hplain, ← List.append_nil (a.map Prod.fst)]
  exact Respaced.keep_append (.done hw) a

end Lexer

namespace Text

variable {t : Text}

theorem trimStart_eq_self (h : ∀ c, t.head? = some c → isWhite c = false) : t.trimStart = t := by
  cases t with
  | nil => rfl
  | cons c s => exact trimStart_append_cons (s := []) (h c rfl)

theorem trimEnd_eq_self (h : ∀ c, t.getLast? = some c → isWhite c = false) : t.trimEnd = t := by
  rcases List.eq_nil_or_concat t with rfl | ⟨s, c, rfl⟩
  · rfl
  · rw [List.concat_eq_append] at *
    exact trimEnd_append_cons (t := []) (h c (by simp))

theorem trim_trim (t : Text) : t.trim.trim = t.trim := by
  rw [trim.eq_def t.trim, trimStart_eq_self fun _ => head_trim, trimEnd_eq_self fun _ => getLast_trim]

end Text

theorem reindent_trim (code indent newline : Text) :
    reindent code.trim indent newline = reindent code indent newline := by
  rw [reindent, Text.trim_trim]
  rfl

open Lexer

theorem Line.Lines.mem {st : Bool} {q : List (Char × Bool)} {ls : List Line} (h : Lines st q ls) :
    ∀ l ∈ ls, ∀ c ∈ l.text, c ∈ q.map Prod.fst := by
  induction h with
  | last => exact List.forall_mem_singleton.2 fun c hc => hc
  | more _ _ ih =>
    rw [List.map_append, List.map_cons]
    exact List.forall_mem_cons.2 ⟨fun c hc => List.mem_append_left _ hc,
      fun l hl c hc => List.mem_append_right _ (List.mem_cons_of_mem _ (ih l hl c hc))⟩

theorem Line.fits_ofCode {s : Text} (hw : ∀ c ∈ s, isWhite c = true → isSpace c = true) :
    ∀ l ∈ Line.ofCode s, Line.Fits isSpace isSpace l := by
  intro l hl
  have hmem := (Line.lines_split false (Line.quotedChars s)).mem l hl
  rw [Line.quotedChars_fst] at hmem
  exact ⟨fun c hc => hw c (hmem c hc), fun _ c hc => hw c
    (hmem c ((List.takeWhile_prefix _).subset hc)) (List.all_eq_true.1 List.all_takeWhile c hc)⟩

/-- Trimmed code is read into the same tokens. -/
theorem rereads_trim {text : Text} {ts : List Token} (h : Reads .code ts text)
    (hk : ∀ t ∈ ts, t.kind ≠ .closeTag ∧ t.kind ≠ .heredoc)
    (hw : ∀ c ∈ text, isWhite c = true → isSpace c = true) : Rereads ts text.trim := by
  have hstart : text = text.takeWhile isWhite ++ text.trimStart :=
    List.takeWhile_append_dropWhile.symm
  obtain ⟨w, hend, hwhite⟩ := Text.trimEnd_append_white text.trimStart
  have hspace : ∀ c ∈ text.takeWhile isWhite, isSpace c = true := fun c hc =>
    hw c ((List.takeWhile_prefix _).subset hc) (List.all_eq_true.1 List.all_takeWhile c hc)
  have hspace' : ∀ c ∈ w, isSpace c = true := by
    intro c hc
    refine hw c ?_ (hwhite c hc)
    rw [hstart, hend]
    exact List.mem_append_right _ (List.mem_append_right _ hc)
  rw [hstart] at h
  refine (h.drop_space hspace fun c hc => ?_).respaced (fun us hus => ?_) hk
  · refine Bool.eq_false_iff.2 fun hs => ?_
    have := Text.head_trimStart hc
    rw [isWhite_of_isSpace hs] at this
    cases this
  · rw [hend] at hus
    exact hus.respaced_append hspace'

/-- Re-indenting code changes white space and comments alone. -/
theorem lexCode_reindent {text indent : Text} {ts : List Token} (h : lexCode text = .ok ts)
    (hk : ∀ t ∈ ts, t.kind ≠ .closeTag ∧ t.kind ≠ .heredoc)
    (hw : ∀ c ∈ text, isWhite c = true → isSpace c = true)
    (hi : ∀ c ∈ indent, Lexer.isIndent c = true) (e : LineEnding) :
    ∃ us, lexCode (reindent text indent e.text) = .ok us ∧
      us.filter (!·.kind.isTrivia) = ts.filter (!·.kind.isTrivia) := by
  have hfits := Line.fits_ofCode fun c hc => hw c (Text.mem_of_mem_trim hc)
  obtain ⟨us, hus, hess⟩ := (rereads_trim (reads_of_run h) hk hw).respaced (fun us hus => by
    have := (Respaced.reflows e hi).reindent rfl (hus.run _) hfits (Text.trim_trim text) .nil
    rwa [List.append_nil, reindent_trim] at this) hk
  exact ⟨us, hus.run _, hess⟩

/-- A string over two lines, a comment with blanks behind it and a form feed in front of code. -/
theorem lexCode_reindent_string : ∃ ts us,
    lexCode "f('a\n b', // c \n\t\x0c\td\r);\n" = .ok ts ∧
      reindent "f('a\n b', // c \n\t\x0c\td\r);\n" "  " LineEnding.crlf.text =
        "f('a\n b', // c\r\n  d\r);" ∧
      lexCode "f('a\n b', // c\r\n  d\r);" = .ok us ∧
      us.filter (!·.kind.isTrivia) = ts.filter (!·.kind.isTrivia) := by
  have hrun : (lexCode "f('a\n b', // c \n\t\x0c\td\r);\n").toOption.any (fun ts => ts.all fun t =>
      decide (t.kind ≠ .closeTag ∧ t.kind ≠ .heredoc)) = true := by
    decide +kernel
  obtain ⟨ts, h, hk⟩ := Steps.exists_of_any hrun
  have hmoved : reindent "f('a\n b', // c \n\t\x0c\td\r);\n" "  " LineEnding.crlf.text =
      "f('a\n b', // c\r\n  d\r);" := by
    decide +kernel
  have hwhite : ("f('a\n b', // c \n\t\x0c\td\r);\n" : Text).all
      (fun c => decide (isWhite c = true → isSpace c = true)) = true := by
    decide +kernel
  have hindent : ∀ c ∈ ("  " : Text), Lexer.isIndent c = true := List.all_eq_true.1 rfl
  obtain ⟨us, hus, heq⟩ := lexCode_reindent h
    (fun t ht => of_decide_eq_true (List.all_eq_true.1 hk t ht))
    (fun c hc => of_decide_eq_true (List.all_eq_true.1 hwhite c hc)) hindent .crlf
  rw [hmoved] at hus
  exact ⟨ts, us, h, hmoved, hus, heq⟩

end PhpGraft
