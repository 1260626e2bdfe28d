import PhpGraft.Proofs.Balance

/-!
Other tokens in the place of some. Tokens in front of the exchanged ones and behind them are read as
before, if those in the middle are code that is read as a list of declarations.
-/
namespace PhpGraft.Tokens

variable {ts : Tokens} {P M : List Token} {i j e stop : Nat} {p : Place}

/-! Where the code of a file stands. -/

theorem firstFrom_eq {q : Nat → Bool} {n : Nat} (hij : i ≤ j) (hj : j ≤ n)
    (hno : ∀ k, i ≤ k → k < j → q k = false) (hend : j < n → q j = true) : firstFrom q i n = j := by
  refine Nat.le_antisymm ?_ (Nat.le_of_not_lt fun hlt => ?_)
  · rcases Nat.lt_or_eq_of_le hj with hlt | rfl
    · exact firstFrom_lt hij (hend hlt)
    · exact firstFrom_le ..
  · have hpos : q (firstFrom q i n) = true := firstFrom_pos (by omega)
    rw [hno _ (le_firstFrom q (by omega)) hlt] at hpos
    cases hpos

/-- The first open tag, the last one, and what ends the code behind it. -/
structure Spanned (ts : Tokens) (i j n : Nat) : Prop where
  before : ∀ k, k < i → ts.kind? k ≠ some .openTag
  first : ts.kind? i = some .openTag
  le : i ≤ j
  last : ts.kind? j = some .openTag
  behind : ∀ k, j < k → ts.kind? k ≠ some .openTag
  lt : j < n
  le_size : n ≤ ts.size
  code : ∀ k, j < k → k < n → ts.kind? k ≠ some .closeTag
  stop : n < ts.size → ts.kind? n = some .closeTag

theorem Spanned.codeSpan?_eq {first last : Nat} (h : ts.Spanned first last stop) :
    ts.codeSpan? = some ⟨first + 1, stop⟩ := by
  have hlt := lt_size_of_kind? h.last
  have hfirst : ts.findIdx? (·.kind == .openTag) = some first := by
    have hlt := lt_size_of_kind? h.first
    refine Array.findIdx?_eq_some_iff_getElem.2 ⟨hlt, ?_, fun k hk => ?_⟩
    · rw [beq_iff_eq, ← Option.some.injEq, ← kind?_eq_getElem hlt, h.first]
    · have hno := h.before k hk
      rw [kind?_eq_getElem (by omega), ne_eq, Option.some.injEq] at hno
      simpa using hno
  have hlast : ts.toList.reverse.findIdx (·.kind == .openTag) = ts.size - 1 - last := by
    rw [List.findIdx_eq (by rw [List.length_reverse, Array.length_toList]; omega)]
    simp only [List.getElem_reverse, Array.length_toList, Array.getElem_toList]
    refine ⟨?_, fun k hk => ?_⟩
    · have hkind := h.last
      rw [kind?_eq_getElem hlt, Option.some.injEq] at hkind
      simp only [show ts.size - 1 - (ts.size - 1 - last) = last by omega, hkind, beq_self_eq_true]
    · have hno := h.behind (ts.size - 1 - k) (by omega)
      rw [kind?_eq_getElem (by omega), ne_eq, Option.some.injEq] at hno
      simpa using hno
  rw [codeSpan?, hfirst, hlast, Option.map_some]
  have hstop := firstFrom_eq (q := (ts.kind? · == some .closeTag)) (show last + 1 ≤ stop from h.lt)
    h.le_size (fun k hk hks => by simpa using h.code k hk hks) (fun hs => by simpa using h.stop hs)
  simp only [show ts.size - 1 - (ts.size - 1 - last) = last by omega, hstop]

theorem spanned_of_codeSpan? {body : Span} (h : ts.codeSpan? = some body) :
    ∃ first last, ts.Spanned first last body.stop ∧ body.start = first + 1 := by
  obtain ⟨first, hf, rfl⟩ := Option.map_eq_some_iff.1 h
  obtain ⟨hlt, hopen, hbefore⟩ := Array.findIdx?_eq_some_iff_getElem.1 hf
  have hfound : ts.toList.reverse.findIdx (·.kind == .openTag) < ts.toList.reverse.length := by
    refine List.findIdx_lt_length_of_exists ⟨ts[first], ?_, hopen⟩
    rw [List.mem_reverse, Array.mem_toList_iff]
    exact Array.getElem_mem hlt
  have hat := List.findIdx_getElem (w := hfound)
  have hno : ∀ k (hk : k < ts.size),
      ts.size - 1 - ts.toList.reverse.findIdx (·.kind == .openTag) < k →
        (ts[k].kind == .openTag) = false := by
    intro k hk hlt
    have := List.not_of_lt_findIdx (show ts.size - 1 - k < ts.toList.reverse.findIdx
      (·.kind == .openTag) by omega)
    simpa only [List.getElem_reverse, Array.length_toList, Array.getElem_toList,
      show ts.size - 1 - (ts.size - 1 - k) = k by omega] using this
  simp only [List.length_reverse, Array.length_toList] at hfound
  simp only [List.getElem_reverse, Array.length_toList, Array.getElem_toList, beq_iff_eq] at hat
  replace hat := (kind?_eq_getElem (show _ < ts.size by omega)).trans (congrArg some hat)
  generalize hr : ts.toList.reverse.findIdx (·.kind == .openTag) = r at hfound hat hno
  have hle : first ≤ ts.size - 1 - r := by
    refine Nat.le_of_not_lt fun hgt => ?_
    have := hno first hlt hgt
    rw [hopen] at this
    cases this
  have hstart : ts.size - 1 - r + 1 ≤ ts.size := by omega
  refine ⟨first, ts.size - 1 - r, ⟨fun k hk => ?_, ?_, hle, ?_, fun k hk => ?_, ?_,
    firstFrom_le .., fun k hk hks => ?_, fun hs => ?_⟩, rfl⟩
  · rw [kind?_eq_getElem (by omega), ne_eq, Option.some.injEq]
    simpa using hbefore k hk
  · rw [kind?_eq_getElem hlt, beq_iff_eq.1 hopen]
  · exact hat
  · intro hkind
    have hks := lt_size_of_kind? hkind
    have := hno k hks hk
    rw [kind?_eq_getElem hks, Option.some.injEq] at hkind
    rw [hkind] at this
    cases this
  · exact le_firstFrom _ hstart
  · have := not_of_lt_firstFrom (show ts.size - 1 - r + 1 ≤ k by omega) hks
    simpa using this
  · exact beq_iff_eq.1 (firstFrom_pos hs)

/-! The tokens `M` stand behind `P`, and those of `ts` from `e` on behind them. -/

def exchange (ts : Tokens) (P M : List Token) (e : Nat) : Tokens :=
  (P ++ (M ++ ts.toList.drop e)).toArray

/-- The tokens in front are those of `ts`, up to their texts; what goes and what comes is code. -/
structure Exchanges (ts : Tokens) (P M : List Token) (e : Nat) : Prop where
  front : ∀ k, k < P.length → (P[k]?.map Token.kind) = ts.kind? k
  le : P.length ≤ e
  size : e ≤ ts.size
  code : ∀ k, P.length ≤ k → k < e → ∀ t, ts[k]? = some t → t.kind.isOutside = false
  inside : ∀ t ∈ M, t.kind.isOutside = false

/-- The tokens in front are those of `ts`, up to an opening brace or a semicolon. -/
structure Fronted (ts : Tokens) (P : List Token) : Prop where
  front : ∀ k, k < P.length → P[k]? = ts[k]?
  pos : 0 < P.length
  opened : ∃ z, (z = '\x7b' ∨ z = ';') ∧ ts.isPunct (P.length - 1) z = true

theorem exchange_front {k : Nat} (hk : k < P.length) : (ts.exchange P M e)[k]? = P[k]? := by
  rw [exchange, List.getElem?_toArray, List.getElem?_append_left hk]

theorem exchange_back {k : Nat} (hk : e ≤ k) :
    (ts.exchange P M e)[shift e (P.length + M.length) k]? = ts[k]? := by
  rw [exchange, List.getElem?_toArray, shift, List.getElem?_append_right (by omega),
    List.getElem?_append_right (by omega), List.getElem?_drop, Array.getElem?_toList]
  congr 1
  omega

theorem exchange_middle {k : Nat} (hk : P.length ≤ k) (hk' : k < P.length + M.length) :
    ∃ t ∈ M, (ts.exchange P M e)[k]? = some t := by
  have hlt : k - P.length < M.length := by omega
  refine ⟨M[k - P.length], List.getElem_mem _, ?_⟩
  rw [exchange, List.getElem?_toArray, List.getElem?_append_right hk, List.getElem?_append_left hlt,
    List.getElem?_eq_getElem hlt]

theorem size_exchange : (ts.exchange P M e).size = shift e (P.length + M.length) ts.size := by
  simp only [exchange, List.size_toArray, List.length_append, List.length_drop, Array.length_toList,
    shift, Nat.add_assoc]

namespace Exchanges

theorem kind?_front (h : ts.Exchanges P M e) {k : Nat} (hk : k < P.length) :
    (ts.exchange P M e).kind? k = ts.kind? k := by
  rw [kind?, exchange_front hk, h.front k hk]

theorem kind?_back {k : Nat} (hk : e ≤ k) :
    (ts.exchange P M e).kind? (shift e (P.length + M.length) k) = ts.kind? k := by
  rw [kind?, kind?, exchange_back hk]

theorem kind?_middle (h : ts.Exchanges P M e) {k : Nat} {kind : TokenKind} (hk : P.length ≤ k)
    (hk' : k < P.length + M.length) (hkind : kind.isOutside = true) :
    (ts.exchange P M e).kind? k ≠ some kind := by
  obtain ⟨t, ht, he⟩ : ∃ t ∈ M, (ts.exchange P M e)[k]? = some t := exchange_middle hk hk'
  rw [kind?, he, Option.map_some]
  rintro ⟨⟩
  rw [h.inside t ht] at hkind
  cases hkind

theorem kind?_code (h : ts.Exchanges P M e) {k : Nat} {kind : TokenKind} (hk : P.length ≤ k)
    (hk' : k < e) (hkind : kind.isOutside = true) : ts.kind? k ≠ some kind := by
  intro he
  obtain ⟨t, ht, rfl⟩ := Option.map_eq_some_iff.1 he
  rw [h.code k hk hk' t ht] at hkind
  cases hkind

/-- A kind that stands nowhere in what is exchanged stands where it did. -/
theorem kind?_ne (h : ts.Exchanges P M e) {k : Nat} {kind : TokenKind} (hkind : kind.isOutside = true)
    (hfront : k < P.length → ts.kind? k ≠ some kind)
    (hback : ∀ j, e ≤ j → k = shift e (P.length + M.length) j → ts.kind? j ≠ some kind) :
    (ts.exchange P M e).kind? k ≠ some kind := by
  rcases Nat.lt_or_ge k P.length with hk | hk
  · rw [h.kind?_front hk]
    exact hfront hk
  rcases Nat.lt_or_ge k (P.length + M.length) with hk' | hk'
  · exact h.kind?_middle hk hk' hkind
  · have hshift : k = shift e (P.length + M.length) (e + (k - (P.length + M.length))) := by
      unfold shift
      omega
    rw [hshift, kind?_back (Nat.le_add_right _ _)]
    exact hback _ (Nat.le_add_right _ _) hshift

/-- The code of the file starts and ends where it did. -/
theorem codeSpan? (h : ts.Exchanges P M e) {body : Span} (hb : ts.codeSpan? = some body)
    (hstart : body.start ≤ P.length) (hstop : e ≤ body.stop) :
    (ts.exchange P M e).codeSpan? =
      some ⟨body.start, shift e (P.length + M.length) body.stop⟩ := by
  obtain ⟨first, last, hs, hfirst⟩ := spanned_of_codeSpan? hb
  have hle := h.le
  have hlast : last < P.length ∨ e ≤ last := by
    rcases Nat.lt_or_ge last P.length with hl | hl
    · exact .inl hl
    · refine .inr (Nat.le_of_not_lt fun hle => ?_)
      exact h.kind?_code hl hle rfl hs.last
  have hspan : ∃ last', (ts.exchange P M e).Spanned first last'
      (shift e (P.length + M.length) body.stop) := by
    have hbefore : ∀ k, k < first → (ts.exchange P M e).kind? k ≠ some .openTag := by
      intro k hk
      rw [h.kind?_front (by omega)]
      exact hs.before k hk
    have hopen : (ts.exchange P M e).kind? first = some .openTag := by
      rw [h.kind?_front (by omega), hs.first]
    have hend : shift e (P.length + M.length) body.stop < (ts.exchange P M e).size →
        (ts.exchange P M e).kind? (shift e (P.length + M.length) body.stop) = some .closeTag := by
      intro hlt
      rw [size_exchange, shift_lt hstop] at hlt
      rw [kind?_back hstop]
      exact hs.stop hlt
    have hsize : shift e (P.length + M.length) body.stop ≤ (ts.exchange P M e).size := by
      rw [size_exchange]
      exact shift_le hs.le_size
    have hlt := hs.lt
    have hfl := hs.le
    rcases hlast with hl | hl
    · refine ⟨last, ⟨hbefore, hopen, hfl, ?_, fun k hk => ?_, ?_, hsize, fun k hk hks => ?_, hend⟩⟩
      · rw [h.kind?_front hl, hs.last]
      · exact h.kind?_ne rfl (fun _ => hs.behind k hk) fun j hj _ => hs.behind j (by omega)
      · unfold shift
        omega
      · refine h.kind?_ne rfl (fun hkP => hs.code k hk (by omega)) fun j hj hkj => ?_
        refine hs.code j (by omega) ?_
        rw [hkj, shift_lt hj] at hks
        exact hks
    · refine ⟨shift e (P.length + M.length) last, ⟨hbefore, hopen, ?_, ?_, fun k hk => ?_, ?_, hsize,
        fun k hk hks => ?_, hend⟩⟩
      · unfold shift
        omega
      · rw [kind?_back hl, hs.last]
      · refine h.kind?_ne rfl (fun hkP => ?_) fun j hj hkj => ?_
        · unfold shift at hk
          omega
        · rw [hkj, shift_lt hl] at hk
          exact hs.behind j hk
      · rw [shift_lt hl]
        exact hlt
      · refine h.kind?_ne rfl (fun hkP => ?_) fun j hj hkj => ?_
        · unfold shift at hk
          omega
        · rw [hkj, shift_lt hl] at hk
          rw [hkj, shift_lt hj] at hks
          exact hs.code j hk hks
  obtain ⟨last', hspan⟩ := hspan
  rw [hspan.codeSpan?_eq, hfirst]

end Exchanges

/-! Lists of entries, up to what ends them. -/

/-- The list that starts at `i` is read as `ns`. -/
def Entries (ts : Tokens) (p : Place) (stop i : Nat) (ns : List Node) : Prop :=
  ∃ last, ts.Items p stop i ns last ∧ ts.Halts p last stop

theorem plain_of_white (hw : ∀ k, i ≤ k → k < j → ts.kind? k = some .whitespace) : ts.Plain i j := by
  intro k hk hkj
  rw [isCode, hw k hk hkj]
  rfl

theorem Items.append_entries {mid : Nat} {ns ms : List Node} (h : ts.Items p stop i ns mid)
    (h' : ts.Entries p stop mid ms) : ts.Entries p stop i (ns ++ ms) := by
  obtain ⟨last, hi, hh⟩ := h'
  exact ⟨last, h.append hi, hh⟩

theorem halts_of_plain (hi : i ≤ stop) (hp : ts.Plain i stop) (p : Place) : ts.Halts p i stop := by
  intro hlt
  have hcode := hp _ (le_significant hi) hlt
  rw [isCode_significant hlt] at hcode
  cases hcode

theorem plain_of_halts (h : ts.Halts p i stop) (hp : p ≠ .scope false) : ts.Plain i stop := by
  have hend : ts.significant i stop = stop :=
    Nat.le_antisymm (significant_le ..) (Nat.le_of_not_lt fun hlt => hp (h hlt).1)
  exact hend ▸ plain_significant _ i _

theorem file_of_entries {body : Span} {ns : List Node} (hb : ts.codeSpan? = some body)
    (h : ts.Entries .file body.stop body.start ns) :
    ts.file = .ok (.ofSource .file ⟨0, ts.size⟩ (some body) ns) := by
  obtain ⟨last, hi, hh⟩ := h
  simp only [file, hb, fileItems_of_items hi hh]

/-- How a file was read. -/
theorem entries_of_file {root : Node} (h : ts.file = .ok root) :
    ∃ body, ts.codeSpan? = some body ∧ ts.Entries .file body.stop body.start root.children ∧
      root = .ofSource .file ⟨0, ts.size⟩ (some body) root.children := by
  unfold file at h
  split at h
  · cases h
  rename_i body hb
  split at h
  · cases h
  rename_i ns hns
  cases h
  exact ⟨body, hb, items_of_fileItems hns, rfl⟩

/-! In front of what is exchanged and behind it. -/

@[simp] theorem shift_zero (k : Nat) : shift 0 0 k = k := by
  unfold shift
  omega

theorem copy_front {stop' : Nat} (hP : ts.Fronted P) (hs : P.length ≤ stop) (hs' : P.length ≤ stop') :
    Copy ts (ts.exchange P M e) 0 0 P.length stop stop' := by
  obtain ⟨hfront, hpos, z, hz, hp⟩ := hP
  have hbarrier : Lexer.isBarrier z = true := by rcases hz with rfl | rfl <;> rfl
  refine .of_equal (.wall hpos (firm_of_barrier hbarrier hp) hs (by rwa [shift_zero])) (fun hclose _ => ?_)
    fun k _ hk => ?_
  · rw [isPunct_iff] at hp hclose
    cases hp.symm.trans hclose
    rcases hz with hz | hz <;> cases hz
  · rw [shift_zero, exchange_front hk, hfront k hk]

theorem copy_back (he : e ≤ stop) (hs : ts.isPunct stop '#' = false) :
    Copy ts (ts.exchange P M e) e (P.length + M.length) (stop + 1) stop
      (shift e (P.length + M.length) stop) := by
  refine .of_equal (.bound he (Nat.lt_succ_self _) fun h => ?_) (fun _ h => ?_) fun k hk _ => ?_
  · rw [hs] at h
    cases h
  · exact absurd h (Nat.not_succ_le_self _)
  · exact exchange_back hk

theorem not_isPunct_stop {body : Span} (h : ts.codeSpan? = some body) (c : Char) :
    ts.isPunct body.stop c = false := by
  obtain ⟨first, last, hs, -⟩ := spanned_of_codeSpan? h
  refine Bool.eq_false_iff.2 fun hp => ?_
  have hclose := hs.stop (lt_size_of_isCode (isCode_of_isPunct hp))
  rw [kind?, isPunct_iff.1 hp] at hclose
  cases hclose

/-- A list behind what is exchanged. -/
theorem entries_back {ns : List Node} (he : e ≤ i) (hi : i ≤ stop) (hsize : stop ≤ ts.size)
    (hs : ∀ c, ts.isPunct stop c = false) (h : ts.Entries p stop i ns) :
    ∃ ms, (ts.exchange P M e).Entries p (shift e (P.length + M.length) stop)
      (shift e (P.length + M.length) i) ms ∧ ms.map Node.bare = ns.map Node.bare := by
  obtain ⟨last, hitems, hhalts⟩ := h
  have hge := hitems.le
  have hle := hitems.le_stop hi hsize (hs _)
  have C := copy_back (P := P) (M := M) (Nat.le_trans he hi) (hs '#')
  refine ⟨_, ⟨_, C.items hitems he (by omega) hsize ?_, C.halts hhalts (by omega) (by omega)⟩,
    Node.map_bare_move _ _⟩
  exact C.settles_of_halts hhalts (by omega) (by omega)

theorem decl_finish (ts : Tokens) (stop : Nat) (r : Node × Nat) :
    (ts.finish stop r).1.decl = r.1.decl := by
  have := congrArg Node.decl (bare_finish ts stop r)
  simpa only [Node.bare_decl] using this

theorem finish_snd_of_not_isScope {r : Node × Nat} (h : r.1.decl.isScope = false) (stop : Nat) :
    (ts.finish stop r).2 = ts.trailing r.2 stop := by
  rw [finish, if_neg (Bool.eq_false_iff.1 h), withTrailing_snd]

/-! A class whose members are exchanged. -/

/-- A class that is read at `first`: its keyword, its opening brace and its closing one. -/
structure ClassAt (ts : Tokens) (first stop : Nat) (c : ClassStart) (bases interfaces : List Text)
    (opening closing : Nat) : Prop where
  use : ts.isKeyword first "use" = false
  attributes : ∃ head, ts.skipAttributes first stop = .ok head ∧ head ≤ c.keyword
  starts : ts.classStart? first stop = some c
  keyword_le : c.keyword ≤ stop
  keyword : ts.isName c.keyword = true
  name : ts.isName (ts.significant (c.keyword + 1) stop) = true
  parents : ts.classParents (ts.significant (c.keyword + 1) stop) stop none
    (ts.significant (ts.significant (c.keyword + 1) stop + 1) stop) = .ok (bases, interfaces, opening)
  matching : ts.matching .curly opening stop = .ok closing

/-- The class with the given members. -/
def classNode (ts : Tokens) (start stop : Nat) (c : ClassStart) (bases interfaces : List Text)
    (opening closing : Nat) (children : List Node) : Node × Nat :=
  (.ofSource (.classLike ⟨c.kind, c.modifiers, ts.text (ts.significant (c.keyword + 1) stop), bases,
    interfaces⟩) ⟨start, closing + 1⟩ (some ⟨opening + 1, closing⟩) children, closing + 1)

theorem declaration_of_classAt {c : ClassStart} {bases interfaces : List Text}
    {start first opening closing : Nat} {children : List Node}
    (h : ts.ClassAt first stop c bases interfaces opening closing)
    (hm : ts.members (opening + 1) closing = .ok children) : ts.declaration start first stop =
      .ok (ts.classNode start stop c bases interfaces opening closing children) := by
  rw [declaration, if_neg (Bool.eq_false_iff.1 h.use), h.starts]
  simp only [classDecl, h.parents, h.matching, hm]
  rfl

/-- How a class was read. -/
theorem classAt_of_declaration {start first : Nat} {r : Node × Nat}
    (h : ts.declaration start first stop = .ok r) (hs : first < stop)
    (hclass : r.1.decl.isClass = true) : ∃ c bases interfaces opening closing children,
      ts.ClassAt first stop c bases interfaces opening closing ∧
        ts.members (opening + 1) closing = .ok children ∧
          r = ts.classNode start stop c bases interfaces opening closing children := by
  have hverbatim : ∀ {block r}, ts.verbatim start first stop block = .ok r → r.1.decl.isClass = false := by
    intro block r h
    unfold verbatim at h
    split at h <;> cases h
    rfl
  unfold declaration at h
  split at h
  · unfold importDecl at h
    split at h
    · cases h
    · split at h
      · cases h
        cases hclass
      · rw [hverbatim h] at hclass
        cases hclass
  rename_i huse
  split at h
  · rename_i c hc
    have hstart := hc
    unfold classStart? at hc
    split at hc
    · cases hc
    rename_i head ha
    dsimp only at hc
    split at hc
    · rename_i hnames
      obtain ⟨hname, hname'⟩ := Bool.and_eq_true_iff.1 hnames
      obtain ⟨kind, -, rfl⟩ := Option.map_eq_some_iff.1 hc
      have hmods := ts.le_of_modifiers classModifiers head stop
      have hmle := ts.modifiers_le classModifiers (skipAttributes_le ha (Nat.le_of_lt hs))
      unfold classDecl at h
      dsimp only at h
      split at h
      · cases h
      rename_i hp
      split at h
      · cases h
      rename_i hm
      split at h
      · cases h
      rename_i children hchildren
      cases h
      exact ⟨_, _, _, _, _, children, ⟨Bool.eq_false_iff.2 huse, ⟨head, ha, hmods⟩, hstart, hmle, hname,
        hname', hp, hm⟩, hchildren, rfl⟩
    · cases hc
  · split at h
    · cases h
    · rw [hverbatim h] at hclass
      cases hclass

section

variable {us : Tokens} {stop' hi first opening closing closing' : Nat} {c : ClassStart}
  {bases interfaces : List Text}

theorem ClassAt.keyword_lt (h : ts.ClassAt first stop c bases interfaces opening closing) :
    c.keyword < opening ∧ ts.significant (c.keyword + 1) stop < opening := by
  have hle := le_of_classParents h.parents
  have hbounds := matching_bounds h.matching
  have hmin := ts.min_le_significant (c.keyword + 1) stop
  have hmin' := ts.min_le_significant (ts.significant (c.keyword + 1) stop + 1) stop
  omega

/-- A class is read as before up to its brace. -/
theorem ClassAt.copy (h : ts.ClassAt first stop c bases interfaces opening closing)
    (C : Copy ts us 0 0 hi stop stop') (hhi : opening < hi) (hs : first < stop)
    (hm : us.matching .curly opening stop' = .ok closing') :
    us.ClassAt first stop' c bases interfaces opening closing' ∧
      us.significant (c.keyword + 1) stop' = ts.significant (c.keyword + 1) stop := by
  obtain ⟨head, ha, hhead⟩ := h.attributes
  obtain ⟨hk, hn⟩ := h.keyword_lt
  have hfirst := le_of_skipAttributes ha
  have hsettles : ts.Settles first stop hi := by
    intro j hj
    rw [ha] at hj
    cases hj
    omega
  obtain ⟨hsig, -, -⟩ := C.toWindow.next (fun _ => by omega) (Nat.zero_le c.keyword) (by omega)
    h.keyword_le
  obtain ⟨hsig', -, -⟩ := C.toWindow.next (fun _ => by omega)
    (Nat.zero_le (ts.significant (c.keyword + 1) stop)) (by omega) (significant_le ..)
  have hattributes := (C.toWindow.skipAttributes ha (Nat.zero_le _) (by omega) (Nat.le_of_lt hs)
    (by omega)).1
  have hstart := C.classStart? (Nat.zero_le _) (by omega) (Nat.le_of_lt hs) hsettles ha
  have hparents := C.classParents h.parents (Nat.zero_le _) (by omega)
    (ts.significant (c.keyword + 1) stop)
  have huse := (C.alike first (Nat.zero_le _) (by omega)).isKeyword_eq "use"
  have hkeyword := (C.alike c.keyword (Nat.zero_le _) (by omega)).isName_eq
  have hname := (C.alike (ts.significant (c.keyword + 1) stop) (Nat.zero_le _) (by omega)).isName_eq
  have hstop := (C.lt_stop_iff (Nat.zero_le c.keyword) (by omega)).2
  rw [h.starts] at hstart
  simp only [shift_zero] at hsig hsig' hattributes hstart hparents huse hkeyword hname hstop
  refine ⟨⟨huse.trans h.use, ⟨head, hattributes, hhead⟩, hstart, ?_, hkeyword.trans h.keyword, ?_, ?_,
    hm⟩, hsig⟩
  · have hbounds := matching_bounds h.matching
    exact Nat.le_of_lt (hstop (by omega))
  · rw [hsig, hname, h.name]
  · rw [hsig, hsig', hparents]

theorem body_finish (ts : Tokens) (stop : Nat) (r : Node × Nat) :
    (ts.finish stop r).1.origin.anchor?.bind Anchor.body? =
      r.1.origin.anchor?.bind Anchor.body? := by
  unfold finish
  split
  · rfl
  · unfold withTrailing
    dsimp only
    split
    · rename_i ho
      rw [ho]
      rfl
    · rfl

theorem classAt_of_entry {start : Nat} {r : Node × Nat} (hp : p ≠ .members)
    (h : ts.entry p start first stop = .ok r) (hclass : r.1.decl.isClass = true) :
    ts.isNamespace first stop = false ∧
      ts.declaration start first stop = .ok r := by
  cases p with
  | members => exact absurd rfl hp
  | file =>
    unfold entry at h
    dsimp only at h
    split at h
    · have hscope := isScope_of_namespaceDecl h
      cases hd : r.1.decl <;> rw [hd] at hscope hclass
      case scope => cases hclass
      all_goals cases hscope
    · exact ⟨Bool.eq_false_iff.2 ‹_›, h⟩
  | scope braced =>
    unfold entry at h
    dsimp only at h
    split at h
    · cases h
    · exact ⟨Bool.eq_false_iff.2 ‹_›, h⟩

theorem entry_of_declaration {start : Nat} (hp : p ≠ .members) (h : ts.isNamespace first stop = false) :
    ts.entry p start first stop = ts.declaration start first stop := by
  cases p with
  | members => exact absurd rfl hp
  | file => exact if_neg (Bool.eq_false_iff.1 h)
  | scope braced => exact if_neg (Bool.eq_false_iff.1 h)

end

/-- Other members in the place of those of a class: they are read, and the brace behind them closes the
class. -/
structure Remembers (ts : Tokens) (P M : List Token) (e : Nat) (children : List Node) : Prop where
  front : ∀ k, k < P.length → P[k]? = ts[k]?
  pos : 0 < P.length
  opened : ts.isPunct (P.length - 1) '\x7b' = true
  le : P.length ≤ e
  members : (ts.exchange P M e).members P.length (P.length + M.length) = .ok children
  matching : ∀ stop stop', ts.matching .curly (P.length - 1) stop = .ok e →
    P.length + M.length < stop' →
    (ts.exchange P M e).matching .curly (P.length - 1) stop' = .ok (P.length + M.length)

theorem Remembers.fronted {children : List Node} (h : ts.Remembers P M e children) : ts.Fronted P :=
  ⟨h.front, h.pos, _, .inl rfl, h.opened⟩

section

variable {children before after ns : List Node} {c n : Node} {last : Nat}

/-- What is known of a class that is read with other members. -/
structure Remembered (ts : Tokens) (P M : List Token) (e : Nat) (children : List Node) (p : Place)
    (start first stop : Nat) (r r' : Node × Nat) : Prop where
  first_lt : first < P.length
  lt_stop : e < stop
  settles : ts.Settles first stop P.length
  read : (ts.exchange P M e).entry p start first (shift e (P.length + M.length) stop) = .ok r'
  next : r.2 = e + 1
  next' : r'.2 = P.length + M.length + 1
  isScope : r.1.decl.isScope = false
  isScope' : r'.1.decl.isScope = false
  bare : r'.1.bare = ⟨0, .synthesized, r.1.decl, children.map Node.bare⟩

theorem Remembers.entry {start first : Nat} {r : Node × Nat} (hR : ts.Remembers P M e children)
    (hp : p ≠ .members) (h : ts.entry p start first stop = .ok r) (hs : first < stop)
    (hclass : r.1.decl.isClass = true)
    (ho : r.1.origin.anchor?.bind Anchor.body? = some ⟨P.length, e⟩) :
    ∃ r', ts.Remembered P M e children p start first stop r r' := by
  obtain ⟨hno, hdecl⟩ := classAt_of_entry hp h hclass
  obtain ⟨cs, bases, interfaces, opening, closing, inner, hat, -, rfl⟩ :=
    classAt_of_declaration hdecl hs hclass
  obtain ⟨hopening, rfl⟩ : opening + 1 = P.length ∧ closing = e :=
    ⟨congrArg Span.start (Option.some.inj ho), congrArg Span.stop (Option.some.inj ho)⟩
  obtain rfl : opening = P.length - 1 := by omega
  obtain ⟨head, ha, hhead⟩ := hat.attributes
  have hkeyword := hat.keyword_lt
  have hattr := le_of_skipAttributes ha
  have hlt := (matching_bounds hat.matching).2
  have hle := hR.le
  have hfirst : first < P.length := by omega
  have hend : P.length + M.length < shift closing (P.length + M.length) stop := by
    unfold shift
    omega
  have C := copy_front (M := M) (e := closing) hR.fronted
    (show P.length ≤ stop by omega) (show P.length ≤ shift closing (P.length + M.length) stop by omega)
  obtain ⟨hat', hname⟩ := hat.copy C (by omega) hs (hR.matching _ _ hat.matching hend)
  have hspace := C.isNamespace (Nat.zero_le first) hfirst (Nat.le_of_lt hs)
  have htext := C.text_eq (Nat.zero_le _)
    (show ts.significant (cs.keyword + 1) stop < P.length by omega)
  simp only [shift_zero] at hspace htext
  have hread := @declaration_of_classAt _ _ _ _ _ start _ _ _ _ hat' (by rw [hopening]; exact hR.members)
  rw [← entry_of_declaration hp (hspace.trans hno)] at hread
  refine ⟨_, hfirst, hlt, fun j hj => ?_, hread, rfl, rfl, rfl, rfl, ?_⟩
  · rw [ha] at hj
    cases hj
    omega
  · rw [classNode, hname, htext]
    exact congrArg _ (Node.bareList_eq _)

/-- A list of declarations is read as before but for the members of one of its classes. -/
theorem Items.remember (h : ts.Items p stop i (before ++ c :: after) last)
    (hhalts : ts.Halts p last stop) (hR : ts.Remembers P M e children) (hp : p ≠ .members)
    (hclass : c.decl.isClass = true)
    (ho : c.origin.anchor?.bind Anchor.body? = some ⟨P.length, e⟩) (hsize : stop ≤ ts.size)
    (hstop : ∀ z, z = '#' ∨ z = ';' → ts.isPunct stop z = false) :
    ∃ ns, (ts.exchange P M e).Items p (shift e (P.length + M.length) stop) i ns
        (shift e (P.length + M.length) last) ∧
      (ts.exchange P M e).Halts p (shift e (P.length + M.length) last)
        (shift e (P.length + M.length) stop) ∧
      e < last ∧ i ≤ P.length ∧
      ns.map Node.bare = before.map Node.bare ++
        ⟨0, .synthesized, c.decl, children.map Node.bare⟩ :: after.map Node.bare := by
  obtain ⟨mid, hbefore, hrest⟩ := h.split
  cases hrest with
  | @cons _ r _ _ hs he hafter =>
    rw [decl_finish] at hclass
    rw [body_finish] at ho
    obtain ⟨r', hr⟩ := hR.entry hp he hs hclass ho
    have hfirst : mid ≤ ts.significant mid stop := le_firstFrom_of_lt hs
    have hfirst_lt := hr.first_lt
    have hlt := hr.lt_stop
    have hmid := hbefore.le
    have hle := hR.le
    obtain ⟨us, hus⟩ : ∃ us : Tokens, ts.exchange P M e = us := ⟨_, rfl⟩
    obtain ⟨stop', hstop'⟩ : ∃ stop', shift e (P.length + M.length) stop = stop' := ⟨_, rfl⟩
    have C := copy_front (M := M) (e := e) hR.fronted
      (show P.length ≤ stop by omega)
      (show P.length ≤ shift e (P.length + M.length) stop by unfold shift; omega)
    have hback := copy_back (P := P) (M := M) (Nat.le_of_lt hlt) (hstop _ (.inl rfl))
    have hread := hr.read
    rw [hus, hstop'] at C hback hread
    rw [hus, hstop']
    -- In front of the class.
    have hitems := C.items hbefore (Nat.zero_le _) (by omega) hsize hr.settles
    obtain ⟨hsig, -, -⟩ := C.toWindow.significant (Nat.zero_le mid) (by omega)
    have hlead := C.toWindow.leading (i := mid) (Nat.zero_le _) hfirst_lt
    have hlt' := (C.lt_stop_iff (Nat.zero_le _) hfirst_lt).2 hs
    simp only [shift_zero] at hitems hsig hlead hlt'
    -- Behind it.
    have htrailing := (hback.toWindow.trailing (Nat.le_succ e) (Nat.succ_lt_succ hlt)).1
    rw [shift_succ (Nat.le_refl _), shift_self] at htrailing
    have hnext : (ts.finish stop r).2 = ts.trailing (e + 1) stop := by
      rw [finish_snd_of_not_isScope hr.isScope, hr.next]
    have hnext' : (us.finish stop' r').2 =
        shift e (P.length + M.length) (ts.trailing (e + 1) stop) := by
      rw [finish_snd_of_not_isScope hr.isScope', hr.next', htrailing]
    rw [hnext] at hafter
    have hge := le_trailing ts (e + 1) stop
    have hafterle := hafter.le
    have hlaststop := hafter.le_stop (trailing_le hlt) hsize (hstop _ (.inr rfl))
    have hrest := hback.items hafter (by omega) (by omega) hsize
      (hback.settles_of_halts hhalts (by omega) (by omega))
    rw [← hnext'] at hrest
    have hclassitems := Items.cons (by rw [hsig]; exact hlt') (by rw [hsig, hlead]; exact hread) hrest
    refine ⟨_, hitems.append hclassitems, hback.halts hhalts (by omega) (by omega), by omega, by omega, ?_⟩
    rw [List.map_append, List.map_cons, Node.map_bare_move, Node.map_bare_move, bare_finish, hr.bare,
      decl_finish]

end

/-! A namespace with such a class. -/

theorem lt_scopeHead {keyword : Nat} (h : keyword < stop) : keyword < (ts.scopeHead keyword stop).2 := by
  have hmin := ts.min_le_significant (keyword + 1) stop
  have hmin' := ts.min_le_significant (ts.significant (keyword + 1) stop + 1) stop
  unfold scopeHead
  dsimp only
  split
  · show keyword < ts.significant (ts.significant (keyword + 1) stop + 1) stop
    omega
  · show keyword < ts.significant (keyword + 1) stop
    omega

theorem scopeHead_le (ts : Tokens) (keyword stop : Nat) : (ts.scopeHead keyword stop).2 ≤ stop := by
  unfold scopeHead
  dsimp only
  split
  · exact significant_le ..
  · exact significant_le ..

theorem finish_of_isScope {r : Node × Nat} (h : r.1.decl.isScope = true) (stop : Nat) :
    ts.finish stop r = r := by
  rw [finish, if_pos h]

/-- A namespace among the entries of a file. -/
structure ScopeAt (ts : Tokens) (stop mid : Nat) (r : Node × Nat) : Prop where
  lt : ts.significant mid stop < stop
  isNamespace : ts.isNamespace (ts.significant mid stop) stop = true
  read : ts.namespaceDecl (ts.leading mid (ts.significant mid stop)) (ts.significant mid stop) stop =
    .ok r

theorem scopeAt_of_items {mid last : Nat} {n : Node} {ns : List Node}
    (h : ts.Items .file stop mid (n :: ns) last) (hn : n.decl.isScope = true) :
    ∃ r, ts.ScopeAt stop mid r ∧ n = r.1 ∧ ts.Items .file stop r.2 ns last := by
  cases h with
  | @cons _ r _ _ hs he h =>
    have hscope : r.1.decl.isScope = true := by rwa [decl_finish] at hn
    rw [finish_of_isScope hscope] at h ⊢
    unfold entry at he
    dsimp only at he
    split at he
    · exact ⟨r, ⟨hs, ‹_›, he⟩, rfl, h⟩
    · rw [isScope_of_declaration he] at hscope
      cases hscope

theorem ScopeAt.isKeyword {mid : Nat} {r : Node × Nat} (h : ts.ScopeAt stop mid r) :
    ts.isKeyword (ts.significant mid stop) "namespace" = true :=
  (Bool.and_eq_true_iff.1 (Bool.and_eq_true_iff.1 h.isNamespace).1).1

theorem ScopeAt.items {mid : Nat} {r r' : Node × Nat} (h : ts.ScopeAt stop mid r)
    (hr : ts.namespaceDecl (ts.leading mid (ts.significant mid stop)) (ts.significant mid stop) stop =
      .ok r') (hscope : r'.1.decl.isScope = true) :
    ts.Items .file stop mid [r'.1] r'.2 := by
  have hentry : ts.entry .file (ts.leading mid (ts.significant mid stop))
      (ts.significant mid stop) stop = .ok r' := by
    unfold entry
    dsimp only
    rw [if_pos h.isNamespace, hr]
  have hitems : ts.Items .file stop mid ((ts.finish stop r').1 :: []) (ts.finish stop r').2 :=
    .cons h.lt hentry .nil
  rwa [finish_of_isScope hscope] at hitems

section

variable {us : Tokens} {b stop' mid : Nat} {r : Node × Nat} {before after ns : List Node} {n : Node}
  {body : Span} {name? : Option Text}

/-- A namespace is read as before up to its semicolon or its brace. -/
theorem ScopeAt.copy (h : ts.ScopeAt stop mid r) (C : Copy ts us 0 0 b stop stop')
    (hb : (ts.scopeHead (ts.significant mid stop) stop).2 < b) (hs : stop ≤ ts.size)
    (hbefore : ts.Items .file stop i before mid) :
    (∃ ms, us.Items .file stop' i ms mid ∧ ms.map Node.bare = before.map Node.bare) ∧
      us.significant mid stop' = ts.significant mid stop ∧
      us.scopeHead (ts.significant mid stop) stop' = ts.scopeHead (ts.significant mid stop) stop ∧
      ∀ r', us.namespaceDecl (us.leading mid (ts.significant mid stop)) (ts.significant mid stop)
        stop' = .ok r' → us.ScopeAt stop' mid r' := by
  have hlt : ts.significant mid stop < (ts.scopeHead (ts.significant mid stop) stop).2 :=
    lt_scopeHead h.lt
  have hmid : mid ≤ ts.significant mid stop := le_firstFrom_of_lt h.lt
  have hfirst : ts.significant mid stop < b := by omega
  obtain ⟨hsig, -, -⟩ := C.toWindow.significant (Nat.zero_le mid) (by omega)
  have hspace := C.isNamespace (Nat.zero_le _) hfirst (Nat.le_of_lt h.lt)
  have hstop := (C.lt_stop_iff (Nat.zero_le _) hfirst).2 h.lt
  obtain ⟨hhead, -, -⟩ := C.scopeHead (Nat.zero_le _) hfirst (Nat.le_of_lt h.lt) fun _ => hb
  have hitems := C.items hbefore (Nat.zero_le _) (by omega) hs
    (settles_of_isKeyword h.isKeyword hfirst)
  simp only [shift_zero] at hsig hspace hstop hhead hitems
  refine ⟨⟨_, hitems, Node.map_bare_move _ _⟩, hsig, hhead, fun r' hr' => ?_⟩
  rw [← hsig] at hstop hspace hr'
  exact ⟨hstop, hspace.trans (hsig ▸ h.isNamespace), hr'⟩

/-- A file of entries, a namespace and more entries. -/
theorem file_of_scopeAt {ms ms' : List Node} {next : Nat}
    (hbody : us.codeSpan? = some body) (hbefore : us.Items .file body.stop body.start ms mid)
    (hr : us.ScopeAt body.stop mid r) (hscope : r.1.decl.isScope = true) (hnext : next = r.2)
    (hafter : us.Entries .file body.stop next ms') :
    us.file = .ok (.ofSource .file ⟨0, us.size⟩ (some body) (ms ++ r.1 :: ms')) := by
  subst hnext
  refine file_of_entries hbody (hbefore.append_entries ?_)
  exact (hr.items hr.read hscope).append_entries hafter

theorem bare_file {span : Span} {ms ms' : List Node} {m : Node}
    (hms : ms.map Node.bare = before.map Node.bare) (hms' : ms'.map Node.bare = after.map Node.bare)
    (hd : m.decl = n.decl) : (Node.ofSource .file span (some body) (ms ++ m :: ms')).bare =
      ⟨0, .synthesized, .file, before.map Node.bare ++
        ⟨0, .synthesized, n.decl, m.children.map Node.bare⟩ :: after.map Node.bare⟩ := by
  have hm : m.bare = ⟨0, .synthesized, n.decl, m.children.map Node.bare⟩ := by
    cases m
    dsimp only at hd
    rw [Node.bare, Node.bareList_eq, hd]
  rw [Node.ofSource, Node.bare, Node.bareList_eq, List.map_append, List.map_cons, hms, hms', hm]

/-- A file with the declarations `ns` in the namespace `n`, read from `inner`, and all else as it was. -/
structure ScopeFile (us : Tokens) (before after : List Node) (n : Node) (ns : List Node) (inner : Span)
    (root : Node) : Prop where
  file : us.file = .ok root
  bare : root.bare = ⟨0, .synthesized, .file, before.map Node.bare ++
    ⟨0, .synthesized, n.decl, ns.map Node.bare⟩ :: after.map Node.bare⟩
  scope : ∃ m, root.children[before.length]? = some m ∧ m.children = ns ∧
    m.origin.anchor?.bind Anchor.body? = some inner

/-- A namespace that was read between the same entries as before. -/
theorem scopeFile_of_scopeAt {ms ms' : List Node} {next : Nat} {inner : Span}
    (hbody : us.codeSpan? = some body) (hms : us.Items .file body.stop body.start ms mid)
    (hbefore : ms.map Node.bare = before.map Node.bare) (hr : us.ScopeAt body.stop mid r)
    (hscope : r.1.decl.isScope = true) (hnext : next = r.2) (hms' : us.Entries .file body.stop next ms')
    (hafter : ms'.map Node.bare = after.map Node.bare) (hd : r.1.decl = n.decl)
    (ho : r.1.origin.anchor?.bind Anchor.body? = some inner) :
    ∃ root, us.ScopeFile before after n r.1.children inner root := by
  refine ⟨_, file_of_scopeAt hbody hms hr hscope hnext hms', bare_file hbefore hafter hd, r.1, ?_, rfl, ho⟩
  have hlen : ms.length = before.length := by
    rw [← List.length_map (f := Node.bare), hbefore, List.length_map]
  change (ms ++ r.1 :: ms')[before.length]? = _
  rw [List.getElem?_append_right (Nat.le_of_eq hlen), hlen, Nat.sub_self]
  rfl

variable {children : List Node} {b₀ : Nat} (h : ts.Exchanges P M e) (hbody : ts.codeSpan? = some body)

section

variable (hP : ts.Fronted P) (hn : ts.Entries .file body.stop body.start (before ++ n :: after))
include h hbody hP hn

/-- A file with a namespace is read as before up to its declarations. -/
theorem scope_front {span : Span} {k : Nat} (hscope : n.decl.isScope = true)
    (ho : n.origin = .anchored ⟨span, some ⟨b₀, k⟩⟩) (hb₀ : b₀ ≤ P.length) (he : e ≤ body.stop) :
    ∃ mid r ms, n = r.1 ∧ ts.ScopeAt body.stop mid r ∧ ts.Entries .file body.stop r.2 after ∧
      (ts.scopeHead (ts.significant mid body.stop) body.stop).2 + 1 = b₀ ∧
      (ts.exchange P M e).codeSpan? =
        some ⟨body.start, shift e (P.length + M.length) body.stop⟩ ∧
      (ts.exchange P M e).Items .file (shift e (P.length + M.length) body.stop) body.start ms mid ∧
      ms.map Node.bare = before.map Node.bare ∧
      (ts.exchange P M e).scopeHead (ts.significant mid body.stop)
          (shift e (P.length + M.length) body.stop) =
        ts.scopeHead (ts.significant mid body.stop) body.stop ∧
      ∀ r', (ts.exchange P M e).namespaceDecl
          ((ts.exchange P M e).leading mid (ts.significant mid body.stop))
          (ts.significant mid body.stop) (shift e (P.length + M.length) body.stop) = .ok r' →
        (ts.exchange P M e).ScopeAt (shift e (P.length + M.length) body.stop) mid r' := by
  obtain ⟨last, hitems, hhalts⟩ := hn
  obtain ⟨mid, hbefore, hrest⟩ := hitems.split
  obtain ⟨r, hr, rfl, hafter⟩ := scopeAt_of_items hrest hscope
  have hb : (ts.scopeHead (ts.significant mid body.stop) body.stop).2 + 1 = b₀ := by
    rcases namespaceDecl_cases hr.read with
      ⟨-, hsemi, children, -, hnode⟩ | ⟨hbrace, closing, children, inner, -, -, rfl⟩
    · rw [hnode] at ho
      exact congrArg Span.start (Option.some.inj (congrArg Anchor.body? (Origin.anchored.inj ho)))
    · exact congrArg Span.start (Option.some.inj (congrArg Anchor.body? (Origin.anchored.inj ho)))
  have hge := hbefore.le
  have hmid : mid ≤ ts.significant mid body.stop := le_firstFrom_of_lt hr.lt
  have hlt : ts.significant mid body.stop < (ts.scopeHead (ts.significant mid body.stop) body.stop).2 :=
    lt_scopeHead hr.lt
  have hle := h.le
  have hspan := h.codeSpan? hbody (by omega) he
  have C := copy_front (e := e) (M := M) hP
    (show P.length ≤ body.stop by omega)
    (show P.length ≤ shift e (P.length + M.length) body.stop by unfold shift; omega)
  obtain ⟨⟨ms, hms, hmsb⟩, -, hhead, hat⟩ := hr.copy C (by omega) (codeSpan?_bounds hbody).2.2.1 hbefore
  exact ⟨mid, r, ms, rfl, hr, ⟨last, hafter, hhalts⟩, hb, hspan, hms, hmsb, hhead, hat⟩

/-- Other declarations in a namespace with braces. -/
theorem file_block {span : Span} {e₀ last : Nat} (hdecl : n.decl = .scope name? true)
    (ho : n.origin = .anchored ⟨span, some ⟨b₀, e₀⟩⟩) (hb₀ : b₀ ≤ P.length) (he₀ : e ≤ e₀)
    (he : e ≤ body.stop)
    (hns : (ts.exchange P M e).Items (.scope true) (shift e (P.length + M.length) e₀) b₀ ns last)
    (hhalts : (ts.exchange P M e).Halts (.scope true) last (shift e (P.length + M.length) e₀))
    (hl : last ≤ shift e (P.length + M.length) e₀) :
    ∃ root, (ts.exchange P M e).ScopeFile before after n ns ⟨b₀, shift e (P.length + M.length) e₀⟩ root := by
  obtain ⟨mid, r, ms, rfl, hr, hafter, hb, hspan, hms, hmsb, hhead, hat⟩ :=
    scope_front h hbody hP hn (by rw [hdecl]; rfl) ho hb₀ he
  rcases namespaceDecl_cases hr.read with
    ⟨-, -, children, -, hnode⟩ | ⟨hbrace, closing, children, inner, hm, -, rfl⟩
  · rw [hnode] at hdecl
    cases hdecl
  obtain rfl : closing = e₀ :=
    congrArg Span.stop (Option.some.inj (congrArg Anchor.body? (Origin.anchored.inj ho)))
  have hbounds := matching_bounds hm
  have hclose := (matching_closes (b := .curly) hbrace hm).2
  have hle := h.le
  have hbrace' : (ts.exchange P M e).isPunct
      (ts.scopeHead (ts.significant mid body.stop) body.stop).2 '\x7b' = true := by
    rw [isPunct, exchange_front (by omega), hP.front _ (by omega)]
    exact hbrace
  have hclose' : (ts.exchange P M e).isPunct (shift e (P.length + M.length) closing) '\x7d' = true := by
    rw [isPunct, exchange_back he₀]
    exact hclose
  have hplain : (ts.exchange P M e).Plain last (shift e (P.length + M.length) closing) :=
    plain_of_halts hhalts (by rintro ⟨⟩)
  have hbalanced := (balanced_items hns).trans (balanced_of_plain hl hplain) hl
  obtain ⟨ms', hafter', hmsb'⟩ := entries_back (P := P) (M := M) (Nat.le_succ_of_le he₀)
    hbounds.2 (codeSpan?_bounds hbody).2.2.1 (not_isPunct_stop hbody) hafter
  rw [shift_succ he₀] at hafter'
  have hend : shift e (P.length + M.length) closing < shift e (P.length + M.length) body.stop :=
    (shift_lt he₀).2 hbounds.2
  have hstart : (ts.scopeHead (ts.significant mid body.stop) body.stop).2 <
      shift e (P.length + M.length) closing := by
    unfold shift
    omega
  have hmatch : (ts.exchange P M e).matching .curly
      ((ts.exchange P M e).scopeHead (ts.significant mid body.stop)
        (shift e (P.length + M.length) body.stop)).2
      (shift e (P.length + M.length) body.stop) = .ok (shift e (P.length + M.length) closing) := by
    rw [hhead]
    exact matching_of_balanced hbrace' (by rw [hb]; exact hbalanced) hclose' hstart hend
  have hread := hat _ (namespaceDecl_block (by rw [hhead]; exact hbrace') hmatch
    (by rw [hhead, hb]; exact declarations_of_items hns hhalts))
  refine scopeFile_of_scopeAt hspan hms hmsb hread rfl rfl hafter' hmsb' ?_ ?_
  · rw [hhead]
    rfl
  · rw [hhead, hb]
    rfl

/-- Other declarations in a namespace without braces, and the same entries behind them. -/
theorem file_statement_entries {span : Span} {k last : Nat} (hdecl : n.decl = .scope name? false)
    (ho : n.origin = .anchored ⟨span, some ⟨b₀, k⟩⟩) (hb₀ : b₀ ≤ P.length) (he : e ≤ body.stop)
    (hns : (ts.exchange P M e).Items (.scope false) (shift e (P.length + M.length) body.stop)
      b₀ ns last)
    (hhalts : (ts.exchange P M e).Halts (.scope false) last
      (shift e (P.length + M.length) body.stop))
    (hback : ts.Entries .file body.stop k after → ∃ ms,
      (ts.exchange P M e).Entries .file (shift e (P.length + M.length) body.stop) last ms ∧
        ms.map Node.bare = after.map Node.bare) :
    ∃ root, (ts.exchange P M e).ScopeFile before after n ns ⟨b₀, last⟩ root := by
  obtain ⟨mid, r, ms, rfl, hr, hafter, hb, hspan, hms, hmsb, hhead, hat⟩ :=
    scope_front h hbody hP hn (by rw [hdecl]; rfl) ho hb₀ he
  rcases namespaceDecl_cases hr.read with
    ⟨hname, hsemi, children, hd, hnode⟩ | ⟨-, closing, children, inner, -, -, rfl⟩
  · obtain rfl : r.2 = k := by
      rw [hnode] at ho
      exact congrArg Span.stop (Option.some.inj (congrArg Anchor.body? (Origin.anchored.inj ho)))
    have hsemi' : (ts.exchange P M e).isPunct
        (ts.scopeHead (ts.significant mid body.stop) body.stop).2 ';' = true := by
      rw [isPunct, exchange_front (by omega), hP.front _ (by omega)]
      exact hsemi
    obtain ⟨ms', hafter', hmsb'⟩ := hback hafter
    have hread := hat _ (namespaceDecl_statement (by rw [hhead]; exact hname)
      (by rw [hhead]; exact hsemi') (by rw [hhead, hb]; exact declarations_of_items hns hhalts))
    refine scopeFile_of_scopeAt hspan hms hmsb hread rfl rfl hafter' hmsb' ?_ ?_
    · rw [hhead, hnode]
      rfl
    · rw [hhead, hb]
      rfl
  · cases hdecl

/-- Other declarations in a namespace without braces, up to where it ended. -/
theorem file_statement {span : Span} {k : Nat} (hdecl : n.decl = .scope name? false)
    (ho : n.origin = .anchored ⟨span, some ⟨b₀, k⟩⟩) (hb₀ : b₀ ≤ P.length) (hk : e ≤ k)
    (hk' : k ≤ body.stop)
    (hns : (ts.exchange P M e).Items (.scope false) (shift e (P.length + M.length) body.stop)
      b₀ ns (shift e (P.length + M.length) k))
    (hhalts : (ts.exchange P M e).Halts (.scope false) (shift e (P.length + M.length) k)
      (shift e (P.length + M.length) body.stop)) :
    ∃ root, (ts.exchange P M e).ScopeFile before after n ns
      ⟨b₀, shift e (P.length + M.length) k⟩ root :=
  file_statement_entries h hbody hP hn hdecl ho hb₀ (Nat.le_trans hk hk') hns hhalts
    (entries_back hk hk' (codeSpan?_bounds hbody).2.2.1 (not_isPunct_stop hbody))

end

section

variable (hR : ts.Remembers P M e children)
include h hR hbody

/-- A class outside of namespaces. -/
theorem file_class {c : Node} (hn : ts.Entries .file body.stop body.start (before ++ c :: after))
    (hclass : c.decl.isClass = true)
    (ho : c.origin.anchor?.bind Anchor.body? = some ⟨P.length, e⟩) (he : e ≤ body.stop) :
    ∃ root, (ts.exchange P M e).file = .ok root ∧ root.bare =
      ⟨0, .synthesized, .file, before.map Node.bare ++
        ⟨0, .synthesized, c.decl, children.map Node.bare⟩ :: after.map Node.bare⟩ := by
  obtain ⟨last, hitems, hhalts⟩ := hn
  obtain ⟨ns, hns, hhalts', -, hstart, hbare⟩ := hitems.remember hhalts hR (by rintro ⟨⟩) hclass ho
    (codeSpan?_bounds hbody).2.2.1 fun z _ => not_isPunct_stop hbody z
  refine ⟨_, file_of_entries (h.codeSpan? hbody hstart he) ⟨_, hns, hhalts'⟩, ?_⟩
  rw [Node.ofSource, Node.bare, Node.bareList_eq, hbare]

/-- A class in a namespace. -/
theorem file_scope_class {c : Node} {before' after' : List Node}
    (hn : ts.Entries .file body.stop body.start (before ++ n :: after)) (hscope : n.decl.isScope = true)
    (hc : n.children = before' ++ c :: after') (hclass : c.decl.isClass = true)
    (ho : c.origin.anchor?.bind Anchor.body? = some ⟨P.length, e⟩) (he : e ≤ body.stop) :
    ∃ root, (ts.exchange P M e).file = .ok root ∧ root.bare =
      ⟨0, .synthesized, .file, before.map Node.bare ++
        ⟨0, .synthesized, n.decl, before'.map Node.bare ++
          ⟨0, .synthesized, c.decl, children.map Node.bare⟩ :: after'.map Node.bare⟩ ::
            after.map Node.bare⟩ := by
  have hentries := hn
  obtain ⟨last, hitems, -⟩ := hn
  obtain ⟨mid, -, hrest⟩ := hitems.split
  obtain ⟨r, hr, rfl, -⟩ := scopeAt_of_items hrest hscope
  rcases namespaceDecl_cases hr.read with
    ⟨hname, hsemi, inner, hd, hnode⟩ | ⟨hbrace, closing, inner, last', hm, hd, rfl⟩
  · obtain rfl : inner = before' ++ c :: after' := by
      rw [hnode] at hc
      exact hc
    obtain ⟨hin, hhalts⟩ := items_of_declarations hd
    obtain ⟨ns, hns, hhalts', hlast, hstart, hbare⟩ := hin.remember hhalts hR (by rintro ⟨⟩) hclass ho
      (codeSpan?_bounds hbody).2.2.1 fun z _ => not_isPunct_stop hbody z
    have hhead : (ts.scopeHead (ts.significant mid body.stop) body.stop).2 < body.stop := by
      refine Nat.lt_of_le_of_ne (scopeHead_le ..) fun he => ?_
      rw [he, not_isPunct_stop hbody] at hsemi
      cases hsemi
    have hle := hin.le_stop hhead (codeSpan?_bounds hbody).2.2.1 (not_isPunct_stop hbody _)
    rw [← hbare]
    obtain ⟨root, hroot⟩ := file_statement h hbody hR.fronted hentries (by rw [hnode]; rfl)
      (by rw [hnode]; rfl) hstart (Nat.le_of_lt hlast) hle hns hhalts'
    exact ⟨root, hroot.file, hroot.bare⟩
  · obtain rfl : inner = before' ++ c :: after' := hc
    have hsize := Nat.le_trans (Nat.le_of_lt (matching_bounds hm).2) (codeSpan?_bounds hbody).2.2.1
    obtain ⟨hlt, hclose⟩ := matching_closes (b := .curly) hbrace hm
    obtain ⟨hin, hhalts⟩ := items_of_declarations hd
    obtain ⟨ns, hns, hhalts', hlast, hstart, hbare⟩ := hin.remember hhalts hR (by rintro ⟨⟩) hclass ho
      hsize fun z hz => not_isPunct_of_ne hclose (by rcases hz with rfl | rfl <;> decide)
    have hle := hin.le_stop hlt hsize (not_isPunct_of_ne hclose (by decide))
    rw [← hbare]
    obtain ⟨root, hroot⟩ := file_block h hbody hR.fronted hentries rfl rfl hstart (by omega) he hns hhalts'
      (shift_le hle)
    exact ⟨root, hroot.file, hroot.bare⟩

end

end

end PhpGraft.Tokens
