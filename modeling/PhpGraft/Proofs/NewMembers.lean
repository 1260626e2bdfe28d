import PhpGraft.Proofs.ClassReading

/-!
A class in a file, as lists of tokens: its members, comments behind them, and white space between all
that. Printed methods come behind the comments, which then stand in front of the first of them.
-/
namespace PhpGraft.Tokens

open Lexer

/-- A brace that is opened and closed around a body, and what stands around the braces. -/
def around (front behind body : List Token) : Tokens :=
  (front ++ ⟨.punct, ['\x7b']⟩ :: (body ++ brace :: behind)).toArray

/-- What stands between the braces of a class. -/
structure ClassBody where
  members : List Token
  /-- White space in front of the comments. -/
  gap : List Token
  comments : List Token
  /-- White space in front of the closing brace. -/
  rest : List Token

namespace ClassBody

def tokens (B : ClassBody) : List Token := B.members ++ (B.gap ++ (B.comments ++ B.rest))

theorem length_tokens (B : ClassBody) :
    B.tokens.length = B.members.length + (B.gap ++ (B.comments ++ B.rest)).length := by
  rw [tokens, List.length_append]

end ClassBody

variable {front behind body members gap F new : List Token} {B : ClassBody} {ms : List Node} {i k : Nat}

theorem getElem?_around_left (hk : k < front.length + 1 + members.length) :
    (around front behind (members ++ body))[k]? =
      (front ++ ⟨.punct, ['\x7b']⟩ :: members)[k]? := by
  have hlist : front ++ ⟨.punct, ['\x7b']⟩ :: (members ++ body ++ brace :: behind) =
      (front ++ ⟨.punct, ['\x7b']⟩ :: members) ++ (body ++ brace :: behind) := by
    simp only [List.append_assoc, List.cons_append]
  rw [around, hlist, List.getElem?_toArray, List.getElem?_append_left]
  rw [List.length_append, List.length_cons]
  omega

theorem getElem?_front (hk : k < (front ++ [(⟨.punct, ['\x7b']⟩ : Token)]).length) :
    (front ++ [(⟨.punct, ['\x7b']⟩ : Token)])[k]? = (around front behind body)[k]? := by
  have hsplit : front ++ ⟨.punct, ['\x7b']⟩ :: (body ++ brace :: behind) =
      front ++ [⟨.punct, ['\x7b']⟩] ++ (body ++ brace :: behind) := by
    rw [List.append_assoc, List.singleton_append]
  rw [around, hsplit, List.getElem?_toArray, List.getElem?_append_left hk]

theorem length_front : (front ++ [(⟨.punct, ['\x7b']⟩ : Token)]).length = front.length + 1 :=
  List.length_append

theorem exchange_around (M : List Token) :
    (around front behind body).exchange (front ++ [⟨.punct, ['\x7b']⟩]) M
      (front.length + 1 + body.length) = around front behind M := by
  have hdrop : (around front behind body).toList.drop (front.length + 1 + body.length) =
      brace :: behind := by
    have hlist : front ++ ⟨.punct, ['\x7b']⟩ :: (body ++ brace :: behind) =
        (front ++ ⟨.punct, ['\x7b']⟩ :: body) ++ brace :: behind := by
      simp only [List.append_assoc, List.cons_append]
    rw [around, hlist]
    refine List.drop_left' ?_
    rw [List.length_append, List.length_cons]
    omega
  rw [exchange, hdrop, around]
  simp only [List.append_assoc, List.singleton_append]

theorem around_append (front behind A M : List Token) : around front behind (A ++ M) =
    ((front ++ ⟨.punct, ['\x7b']⟩ :: A) ++ (M ++ brace :: behind)).toArray := by
  simp only [around, List.append_assoc, List.cons_append]

theorem length_head : (front ++ ⟨.punct, ['\x7b']⟩ :: members).length =
    front.length + 1 + members.length := by
  rw [List.length_append, List.length_cons]
  omega

theorem size_around : (around front behind body).size =
    front.length + 1 + body.length + 1 + behind.length := by
  rw [around, List.size_toArray, List.length_append, List.length_cons, List.length_append,
    List.length_cons]
  omega

theorem isPunct_opening : (around front behind body).isPunct front.length '\x7b' = true := by
  rw [around, isPunct, List.getElem?_toArray, List.getElem?_append_right (Nat.le_refl _), Nat.sub_self]
  rfl

theorem isPunct_closing :
    (around front behind body).isPunct (front.length + 1 + body.length) '\x7d' = true := by
  have hget := getElem?_append (front ++ ⟨.punct, ['\x7b']⟩ :: body) (brace :: behind) 0
  rw [length_head, Nat.add_zero] at hget
  have haround := around_append front behind body []
  rw [List.append_nil, List.nil_append] at haround
  rw [isPunct, haround, hget]
  rfl

/-- A token between two others of the body. -/
theorem getElem?_body (front behind members gap body : List Token)
    (hi : front.length + 1 + members.length ≤ i)
    (hk : i < front.length + 1 + members.length + gap.length) :
    ∃ t ∈ gap, (around front behind (members ++ (gap ++ body)))[i]? = some t := by
  have haround := around_append front behind members (gap ++ body)
  rw [← length_head] at hi hk
  obtain ⟨t, ht, hget⟩ := getElem?_between (B := body ++ brace :: behind) hi hk
  refine ⟨t, ht, ?_⟩
  rw [haround, ← hget]
  simp only [List.append_assoc, List.cons_append]

/-- Members end where an entry can, and all else that stands between the braces is comments and white
space. -/
structure ClassBody.Shaped (B : ClassBody) : Prop where
  inside : ∀ t ∈ B.tokens, t.kind.isOutside = false
  ended : ∀ t, B.members.getLast? = some t →
    (∃ z, isBarrier z = true ∧ t = ⟨.punct, [z]⟩) ∨ t.kind = .lineComment
  white : ∀ t ∈ B.gap ++ B.rest, t.kind = .whitespace
  comments : ∀ t ∈ B.comments, t.kind.isCode = false
  first : ∀ t, B.comments.head? = some t → t.kind.isComment = true
  last : ∀ t, B.comments.getLast? = some t → t.kind.isComment = true
  gap : B.comments = [] → B.gap = []

/-- The class in the middle of a file, where `ms` are read from its members. -/
structure ClassBody.Holds (front behind : List Token) (B : ClassBody) (ms : List Node) : Prop
    extends B.Shaped where
  items : Items (around front behind B.tokens) .members (front.length + 1 + B.tokens.length)
    (front.length + 1) ms (front.length + 1 + B.members.length)

theorem ne_closeTag {t : Token} (h : t.kind.isOutside = false) : t.kind ≠ .closeTag := by
  intro hk
  rw [hk] at h
  cases h

namespace ClassBody.Holds

variable (h : B.Holds front behind ms)
include h

theorem isCode_behind : ∀ t ∈ B.gap ++ (B.comments ++ B.rest), t.kind.isCode = false := by
  intro t ht
  rcases List.mem_append.1 ht with ht | ht
  · rw [h.white t (List.mem_append_left _ ht)]
    rfl
  rcases List.mem_append.1 ht with ht | ht
  · exact h.comments t ht
  · rw [h.white t (List.mem_append_right _ ht)]
    rfl

theorem plain : (around front behind B.tokens).Plain (front.length + 1 + B.members.length)
    (front.length + 1 + B.tokens.length) := by
  intro k hk hke
  rw [B.length_tokens, ← Nat.add_assoc] at hke
  obtain ⟨t, ht, hget⟩ := getElem?_body front behind B.members _ [] hk hke
  rw [List.append_nil] at hget
  exact (isCode_of hget).trans (h.isCode_behind t ht)

theorem closed : ∀ k, front.length + 1 ≤ k → k < front.length + 1 + B.tokens.length →
    (around front behind B.tokens).kind? k ≠ some .closeTag := by
  intro k hk hke
  obtain ⟨t, ht, hget⟩ := getElem?_body front behind [] B.tokens [] hk hke
  rw [List.append_nil, List.nil_append] at hget
  rw [kind?_of hget]
  exact fun he => ne_closeTag (h.inside t ht) (Option.some.inj he)

end ClassBody.Holds

/-- An entry with other tokens in front of its code. -/
def Chunk.widen (F : List Token) (c : Chunk) : Chunk := { c with code := F ++ c.code }

variable {style : Style} {level : Nat} {r : Rendering style level} {rs : List (Rendering style level)}
  {cs : List Chunk} {c : Chunk} {T : Text}

open Rendering

/-- A method that is read behind the members of a class. -/
def Rendering.node (r : Rendering style level) : Node :=
  ⟨0, .synthesized, .method (r.decl.placed style level), []⟩

theorem bare_part (r : Rendering style level) (white : Text) : (r.part white).node.bare = r.node :=
  congrArg (fun d => (⟨0, .synthesized, d, []⟩ : Node)) (decl_part r white)

/-- The entries that printed methods are read as. -/
structure Rendering.Chunks (r : Rendering style level) (rs : List (Rendering style level))
    (behind : List Token) (c : Chunk) (cs : List Chunk) (T : Text) : Prop where
  follows : Follows .members (brace :: behind) (c :: cs) T
  parts : (c :: cs).map (fun c => (c.code, c.node)) =
    (r.part [] :: rs.map (·.part (gapBetween style level))).map (fun P => (P.code, P.node))

namespace Rendering.Chunks

variable (h : Chunks r rs behind c cs T)
include h

theorem code_eq : c.code = methodTokens style level r.method r.gap [] r.tokens :=
  congrArg Prod.fst (List.cons.inj h.parts).1

theorem bares : (c :: cs).map (·.node.bare) = (r :: rs).map node := by
  have hmap := congrArg (List.map fun p : List Token × Node => p.2.bare) h.parts
  rw [List.map_map, List.map_map] at hmap
  refine hmap.trans ?_
  rw [List.map_cons, List.map_cons, List.map_map]
  exact congrArg₂ _ (bare_part r []) (List.map_congr_left fun q _ => bare_part q (gapBetween style level))

theorem balanced : ∀ d ∈ c :: cs, ∀ A X : List Token, Balanced (A ++ (d.code ++ X)).toArray A.length
    (A.length + d.code.length) := by
  intro d hd A X
  have hmem : (d.code, d.node) ∈ (c :: cs).map fun c => (c.code, c.node) := List.mem_map_of_mem hd
  rw [h.parts] at hmem
  obtain ⟨P, hP, he⟩ := List.mem_map.1 hmem
  obtain ⟨q, white, rfl⟩ : ∃ (q : Rendering style level) (white : Text), P = q.part white := by
    rcases List.mem_cons.1 hP with rfl | hP
    · exact ⟨r, [], rfl⟩
    · obtain ⟨q, -, rfl⟩ := List.mem_map.1 hP
      exact ⟨q, _, rfl⟩
  obtain ⟨G, i, text, hmoves⟩ := q.rendered.moves
  have hcode : d.code = methodTokens style level q.method q.gap [] q.tokens :=
    (congrArg Prod.fst he).symm
  rw [hcode]
  exact balanced_method hmoves A X

/-- Comments in front of the first method are read with it. -/
theorem fit_widen (hF : ∀ t ∈ F, t.kind.isCode = false)
    (hhead : ∀ t, F.head? = some t → t.kind.isComment = true) :
    Chunk.Fit .members (brace :: behind) (c.widen F :: cs) := by
  obtain ⟨hc, hcs⟩ := h.follows.fit
  refine ⟨⟨?_, hc.note, hc.gap, hc.calm⟩, hcs⟩
  obtain ⟨G, i, text, hmoves⟩ := r.rendered.moves
  have hnode : c.node = (r.part []).node := congrArg Prod.snd (List.cons.inj h.parts).1
  have hphrase : Phrase .members (methodTokens style level r.method r.gap F r.tokens) (r.part []).node :=
    phrase_method hF hhead hmoves
  have hcode : (c.widen F).code = methodTokens style level r.method r.gap F r.tokens := by
    rw [Chunk.widen, h.code_eq, methodTokens, methodTokens, List.nil_append]
  rw [hcode, Chunk.widen, hnode]
  exact hphrase

end Rendering.Chunks

theorem all_widen (F : List Token) (c : Chunk) (cs : List Chunk) :
    Chunk.all (c.widen F :: cs) = F ++ Chunk.all (c :: cs) := by
  simp only [Chunk.all, List.flatMap_cons, Chunk.tokens, Chunk.widen, List.append_assoc]

/-- What stands between the braces of a class that printed methods were added to. -/
structure Grown where
  members : List Token
  gap : List Token
  /-- In front of the first method that was added. -/
  comments : List Token
  chunk : Chunk
  chunks : List Chunk

def Grown.tokens (G : Grown) : List Token :=
  G.members ++ (G.gap ++ (G.comments ++ Chunk.all (G.chunk :: G.chunks)))

theorem Grown.around_eq (G : Grown) : around front behind G.tokens =
    ((front ++ ⟨.punct, ['\x7b']⟩ :: G.members) ++ (G.gap ++ (Chunk.all
      (G.chunk.widen G.comments :: G.chunks) ++ brace :: behind))).toArray := by
  rw [all_widen, Grown.tokens, around_append]
  simp only [List.append_assoc]

/-- The members are those of the class, but that a comment at their end may differ. -/
structure ClassBody.Grows (front behind : List Token) (B : ClassBody) (G : Grown)
    (r : Rendering style level) (rs : List (Rendering style level)) (T : Text) : Prop where
  chunks : r.Chunks rs behind G.chunk G.chunks T
  members : G.members = B.members ∨ ∃ L v v', B.members = L ++ [⟨.lineComment, v⟩] ∧
    G.members = L ++ [⟨.lineComment, v'⟩]
  gap : ∀ t ∈ G.gap, t.kind = .whitespace
  comments : ∀ t ∈ G.comments, t.kind.isCode = false ∧ t.kind.isOutside = false
  first : ∀ t, G.comments.head? = some t → t.kind.isComment = true
  /-- A member that no comment stood behind on its line still ends with its code. -/
  rests : (∃ z, isBarrier z = true ∧ (around front behind B.tokens).isPunct
      (front.length + 1 + B.members.length - 1) z = true) →
    (around front behind B.tokens).trailing (front.length + 1 + B.members.length)
      (front.length + 1 + B.tokens.length) = front.length + 1 + B.members.length →
    (around front behind G.tokens).trailing (front.length + 1 + B.members.length)
      (front.length + 1 + G.tokens.length) = front.length + 1 + B.members.length

namespace ClassBody.Grows

variable {G : Grown} (h : B.Grows front behind G r rs T)
include h

theorem length_members : G.members.length = B.members.length := by
  rcases h.members with he | ⟨L, v, v', hL, hL'⟩
  · rw [he]
  · rw [hL, hL', List.length_append, List.length_append]
    rfl

theorem length_tokens : G.tokens.length = B.members.length + (G.gap ++ G.comments).length +
    (Chunk.all (G.chunk :: G.chunks)).length := by
  have hlen := h.length_members
  simp only [Grown.tokens, List.length_append]
  omega

/-- In front of the end of the members only a comment at that end may differ. -/
theorem same (hk : k < front.length + 1 + B.members.length) :
    (around front behind G.tokens)[k]? = (around front behind B.tokens)[k]? ∨
      k + 1 = front.length + 1 + B.members.length ∧
        (around front behind B.tokens).kind? k = some .lineComment ∧
          (around front behind G.tokens).kind? k = some .lineComment := by
  have hnew : (around front behind G.tokens)[k]? = _ :=
    getElem?_around_left (h.length_members.symm ▸ hk)
  have hold : (around front behind B.tokens)[k]? = _ := getElem?_around_left hk
  rw [kind?, kind?, hnew, hold]
  rcases h.members with he | ⟨L, v, v', hL, hL'⟩
  · rw [he]
    exact .inl rfl
  · rw [hL] at hk
    rw [hL, hL']
    have happend : ∀ x : Token, front ++ ⟨.punct, ['\x7b']⟩ :: (L ++ [x]) =
        (front ++ ⟨.punct, ['\x7b']⟩ :: L) ++ [x] := fun x => by
      rw [List.append_assoc, List.cons_append]
    rw [happend, happend]
    rw [← length_head, happend, List.length_append, List.length_singleton] at hk ⊢
    rcases Nat.lt_or_eq_of_le (Nat.le_of_lt_succ hk) with hlt | rfl
    · rw [List.getElem?_append_left hlt, List.getElem?_append_left hlt]
      exact .inl rfl
    · rw [List.getElem?_concat_length, List.getElem?_concat_length]
      exact .inr ⟨rfl, rfl, rfl⟩

theorem plain : (around front behind G.tokens).Plain (front.length + 1 + B.members.length)
    (front.length + 1 + B.members.length + (G.gap ++ G.comments).length) := by
  intro k hk hke
  rw [← h.length_members] at hk hke
  obtain ⟨t, ht, hget⟩ := getElem?_body front behind G.members (G.gap ++ G.comments)
    (Chunk.all (G.chunk :: G.chunks)) hk hke
  rw [List.append_assoc] at hget
  rw [Grown.tokens, isCode_of hget]
  rcases List.mem_append.1 ht with ht | ht
  · rw [h.gap t ht]
    rfl
  · exact (h.comments t ht).1

theorem balanced : (around front behind G.tokens).Balanced (front.length + 1 + B.members.length)
    (front.length + 1 + G.tokens.length) := by
  have hchunks := balanced_chunks h.chunks.follows.fit h.chunks.balanced
    (front ++ ⟨.punct, ['\x7b']⟩ :: (G.members ++ (G.gap ++ G.comments))) (brace :: behind)
  have hlen := h.length_tokens
  have hmembers := h.length_members
  have haround : around front behind G.tokens =
      (front ++ ⟨.punct, ['\x7b']⟩ :: (G.members ++ (G.gap ++ G.comments)) ++
        (Chunk.all (G.chunk :: G.chunks) ++ brace :: behind)).toArray := by
    simp only [Grown.tokens, around, List.append_assoc, List.cons_append]
  rw [← haround, length_head, List.length_append] at hchunks
  rw [hlen]
  refine (balanced_of_plain (Nat.le_add_right _ _) h.plain).trans ?_ (by omega)
  have hstart : front.length + 1 + (G.members.length + (G.gap ++ G.comments).length) =
      front.length + 1 + B.members.length + (G.gap ++ G.comments).length := by omega
  rw [hstart] at hchunks
  rwa [← Nat.add_assoc, ← Nat.add_assoc]

variable (hB : B.Holds front behind ms)
include hB

theorem extension : Extends (around front behind B.tokens) (around front behind G.tokens)
    (front.length + 1) (front.length + 1 + B.tokens.length) (front.length + 1 + B.members.length)
    (front.length + 1 + G.tokens.length) where
  opened := ⟨_, rfl, isPunct_opening⟩
  le := Nat.le_add_right _ _
  last_le := by
    rw [B.length_tokens]
    omega
  le_size := by
    rw [size_around]
    omega
  plain := hB.plain
  closed := hB.closed
  same := fun _ hk => h.same hk
  le_new := by
    rw [h.length_tokens]
    omega
  continues := by
    have hcalm : Calm (G.gap ++ (Chunk.all (G.chunk.widen G.comments :: G.chunks) ++
        brace :: behind)) := by
      rw [all_widen, List.append_assoc]
      exact (h.chunks.follows.calm.skip fun t ht => (h.comments t ht).1).skip fun t ht => by
        rw [h.gap t ht]
        rfl
    have hfalse := continues_of_calm (A := front ++ ⟨.punct, ['\x7b']⟩ :: G.members) hcalm
      (front.length + 1 + G.tokens.length)
    rwa [← G.around_eq, length_head, h.length_members] at hfalse
  rests := h.rests

theorem exists_members : ∃ ns, (around front behind G.tokens).members (front.length + 1)
      (front.length + 1 + G.tokens.length) = .ok ns ∧
    ns.map Node.bare = ms.map Node.bare ++ (r :: rs).map Rendering.node := by
  have hlen := h.length_members
  have hn := h.length_tokens
  have hfit := h.chunks.fit_widen (fun t ht => (h.comments t ht).1) h.first
  obtain ⟨ns, hns, hbare⟩ := (h.extension hB).members hB.items G.around_eq
    (length_head.trans (congrArg _ hlen)) h.gap hfit (by
      rw [all_widen]
      simp only [List.length_append] at hn ⊢
      omega)
  exact ⟨ns, hns, hbare.trans (congrArg _ h.chunks.bares)⟩

/-- The tokens between the braces are exchanged. -/
theorem exchanges : Exchanges (around front behind B.tokens) (front ++ [⟨.punct, ['\x7b']⟩]) G.tokens
    (front.length + 1 + B.tokens.length) where
  front := fun k hk => by rw [getElem?_front hk, kind?]
  le := by
    rw [length_front]
    omega
  size := by
    rw [size_around]
    omega
  code := fun k hk hke t ht => by
    rw [length_front] at hk
    obtain ⟨u, hu, hget⟩ := getElem?_body front behind [] B.tokens [] hk hke
    rw [List.append_nil, List.nil_append, ht] at hget
    cases hget
    exact hB.inside t hu
  inside := fun t ht => by
    rcases List.mem_append.1 ht with ht | ht
    · rcases h.members with he | ⟨L, v, v', hL, hL'⟩
      · exact hB.inside t (List.mem_append_left _ (he ▸ ht))
      · rw [hL'] at ht
        rcases List.mem_append.1 ht with ht | ht
        · exact hB.inside t (List.mem_append_left _ (hL ▸ List.mem_append_left _ ht))
        · rw [List.mem_singleton.1 ht]
          rfl
    rcases List.mem_append.1 ht with ht | ht
    · rw [h.gap t ht]
      rfl
    rcases List.mem_append.1 ht with ht | ht
    · exact (h.comments t ht).2
    · exact h.chunks.follows.inside t ht

/-- The class is read with the methods that were added behind its members. -/
theorem exists_remembers : ∃ children, Remembers (around front behind B.tokens)
      (front ++ [⟨.punct, ['\x7b']⟩]) G.tokens (front.length + 1 + B.tokens.length) children ∧
    children.map Node.bare = ms.map Node.bare ++ (r :: rs).map Rendering.node := by
  obtain ⟨children, hread, hbare⟩ := h.exists_members hB
  refine ⟨children, ⟨fun k hk => getElem?_front hk, ?_, ?_, ?_, ?_, fun stop stop' hm hs => ?_⟩, hbare⟩
  · rw [length_front]
    exact Nat.succ_pos _
  · rw [length_front]
    exact isPunct_opening
  · rw [length_front]
    omega
  · rw [exchange_around, length_front]
    exact hread
  · rw [length_front] at hm hs ⊢
    rw [exchange_around]
    exact (h.extension hB).matching (Nat.succ_pos _) hm isPunct_closing h.balanced isPunct_closing hs

end ClassBody.Grows

/-! The text of the class with the methods. -/

/-- White space with a line break may stand behind an entry. -/
theorem clear_blank {w : Text} (hline : '\n' ∈ w) (X : List Token) : Clear (blank w ++ X) := by
  rintro n hn hpre
  cases w with
  | nil => cases hline
  | cons c w =>
    cases hn with
    | near => cases (List.cons_prefix_cons.1 hpre).1
    | apart v hv =>
      cases (List.cons_prefix_cons.1 hpre).1
      rw [List.contains_iff_mem.2 hline] at hv
      cases hv

/-- Where no comment stands behind a token on its line, none does if tokens of the same kinds follow. -/
theorem trailing_of_kinds {A C C' X X' : List Token} {stop stop' : Nat}
    (hgap : ∀ t ∈ gap, t.kind = .whitespace) (hkinds : C'.map Token.kind = C.map Token.kind)
    (hC : ∀ t, C.head? = some t → t.kind.isComment = true) (hne : C ≠ [])
    (hstop : A.length + gap.length + C.length ≤ stop)
    (ht : Tokens.trailing (A ++ (gap ++ (C ++ X))).toArray A.length stop = A.length) :
    Tokens.trailing (A ++ (gap ++ (C' ++ X'))).toArray A.length stop' = A.length := by
  obtain ⟨x, C, rfl⟩ := List.exists_cons_of_ne_nil hne
  obtain ⟨x', C', rfl⟩ : ∃ x' D, C' = x' :: D := by
    cases C' with
    | nil => cases hkinds
    | cons x' D => exact ⟨x', D, rfl⟩
  have hkind : x'.kind = x.kind := (List.cons.inj hkinds).1
  have hcomment : x.kind.isComment = true := hC x rfl
  have hold := getElem?_append A (gap ++ (x :: C ++ X))
  have hnew := getElem?_append A (gap ++ (x' :: C' ++ X'))
  have hold₀ := hold 0
  have hnew₀ := hnew 0
  rw [Nat.add_zero] at hold₀ hnew₀
  rw [List.length_cons] at hstop
  -- A line comment at the start of `C` would have been found behind the gap.
  match gap, hgap with
  | [], _ =>
    refine trailing_none (fun hk => ?_) fun hk => ?_
    · rw [kind?_of hnew₀, hkind, Option.some.injEq] at hk
      obtain ⟨k, v⟩ := x
      obtain rfl : k = .lineComment := hk
      rw [trailing_near hold₀ (by omega)] at ht
      omega
    · rw [kind?_of hnew₀, hkind, Option.some.injEq] at hk
      rw [hk] at hcomment
      cases hcomment
  | [⟨k, u⟩], hgap =>
    obtain rfl : k = .whitespace := hgap _ List.mem_cons_self
    refine trailing_none (fun hk => ?_) fun _ hline hk => ?_
    · rw [kind?_of hnew₀] at hk
      cases hk
    · rw [text_of hnew₀] at hline
      rw [kind?_of (hnew 1), hkind, Option.some.injEq] at hk
      obtain ⟨k, v⟩ := x
      obtain rfl : k = .lineComment := hk
      rw [List.length_singleton] at hstop
      rw [trailing_apart hold₀ hline (hold 1) (by omega)] at ht
      omega
  | g :: g' :: gs, hgap =>
    refine trailing_none (fun hk => ?_) fun _ _ hk => ?_
    · rw [kind?_of hnew₀, hgap g List.mem_cons_self] at hk
      cases hk
    · rw [kind?_of (hnew 1), hgap g' (.tail _ List.mem_cons_self)] at hk
      cases hk

namespace ClassBody.Shaped

variable (h : B.Shaped)
include h

theorem getLast?_ended : ∀ t, (B.members ++ (B.gap ++ B.comments)).getLast? = some t →
    (∃ z, isBarrier z = true ∧ t = ⟨.punct, [z]⟩) ∨ t.kind.isComment = true := by
  intro t ht
  by_cases hc : B.comments = []
  · rw [h.gap hc, hc, List.append_nil, List.append_nil] at ht
    exact (h.ended t ht).imp id fun hk => by rw [hk]; rfl
  · rw [← List.append_assoc, List.getLast?_append_of_ne_nil _ hc] at ht
    exact .inr (h.last t ht)

omit h in
/-- The methods of a class without comments at its end come behind white space. -/
theorem grows_gap {L' : List Token} {w w' : Text} (hchunks : r.Chunks rs behind c cs T)
    (hL : Retouched B.members w L' w') (hline : '\n' ∈ w) :
    B.Grows front behind ⟨L', blank w', [], c, cs⟩ r rs T := by
  generalize hmembers : B.members = L at hL
  refine ⟨hchunks, ?_, kind_blank w', List.forall_mem_nil _, nofun, fun ⟨z, hz, hp⟩ _ => ?_⟩
  · cases hL with
    | same => exact .inl hmembers.symm
    | line L v _ v' => exact .inr ⟨L, v, v', hmembers, rfl⟩
  · cases hL with
    | same =>
      have htrailing := trailing_of_clear (A := front ++ ⟨.punct, ['\x7b']⟩ :: L')
        (clear_blank hline (Chunk.all (c :: cs) ++ brace :: behind))
      rw [length_head] at htrailing
      have haround : around front behind (Grown.tokens ⟨L', blank w, [], c, cs⟩) =
          (front ++ ⟨.punct, ['\x7b']⟩ :: L' ++ (blank w ++ (Chunk.all (c :: cs) ++
            brace :: behind))).toArray := by
        simp only [Grown.tokens, around_append, List.nil_append, List.append_assoc]
      rw [haround, hmembers]
      exact htrailing _
    | line L v _ v' =>
      have hget := getElem?_append (front ++ ⟨.punct, ['\x7b']⟩ :: L)
        (⟨.lineComment, v⟩ :: (B.gap ++ (B.comments ++ B.rest) ++ brace :: behind)) 0
      have haround : around front behind B.tokens = (front ++ ⟨.punct, ['\x7b']⟩ :: L ++
          (⟨.lineComment, v⟩ :: (B.gap ++ (B.comments ++ B.rest) ++ brace :: behind))).toArray := by
        simp only [tokens, hmembers, around, List.append_assoc, List.cons_append, List.nil_append]
      rw [← haround, length_head, Nat.add_zero] at hget
      rw [hmembers, List.length_append, List.length_singleton, ← Nat.add_assoc, Nat.add_sub_cancel,
        isPunct_of hget] at hp
      cases hp

/-- The methods of a class with comments at its end come behind these. -/
theorem grows_comments {C' : List Token} (hchunks : r.Chunks rs behind c cs T) (hc : B.comments ≠ [])
    (hC' : C'.map Token.kind = B.comments.map Token.kind) (w' : Text) :
    B.Grows front behind ⟨B.members, B.gap, C' ++ blank w', c, cs⟩ r rs T := by
  have hkind : ∀ t ∈ C', ∃ u ∈ B.comments, u.kind = t.kind := fun t ht =>
    List.mem_map.1 (hC' ▸ List.mem_map_of_mem ht)
  refine ⟨hchunks, .inl rfl, fun t ht => h.white t (List.mem_append_left _ ht), fun t ht => ?_,
    fun t ht => ?_, fun _ htrailing => ?_⟩
  · rcases List.mem_append.1 ht with ht | ht
    · obtain ⟨u, hu, hk⟩ := hkind t ht
      rw [← hk]
      exact ⟨h.comments u hu, h.inside u (by simp only [tokens, List.mem_append]; tauto)⟩
    · rw [kind_blank w' t ht]
      exact ⟨rfl, rfl⟩
  · have hne : C' ≠ [] := by
      rintro rfl
      exact hc (List.map_eq_nil_iff.1 hC'.symm)
    obtain ⟨x, C, rfl⟩ := List.exists_cons_of_ne_nil hne
    cases ht
    obtain ⟨u, D, hD⟩ := List.exists_cons_of_ne_nil hc
    rw [hD] at hC'
    rw [(List.cons.inj hC').1]
    exact h.first u (by rw [hD]; rfl)
  · have hold : around front behind B.tokens = (front ++ ⟨.punct, ['\x7b']⟩ :: B.members ++
        (B.gap ++ (B.comments ++ (B.rest ++ brace :: behind)))).toArray := by
      simp only [tokens, around_append, List.append_assoc]
    have hnew : around front behind (Grown.tokens ⟨B.members, B.gap, C' ++ blank w', c, cs⟩) =
        (front ++ ⟨.punct, ['\x7b']⟩ :: B.members ++
          (B.gap ++ (C' ++ (blank w' ++ Chunk.all (c :: cs) ++ brace :: behind)))).toArray := by
      simp only [Grown.tokens, around_append, List.append_assoc]
    rw [hold, ← length_head] at htrailing
    rw [hnew, ← length_head]
    refine trailing_of_kinds (fun t ht => h.white t (List.mem_append_left _ ht)) hC' h.first hc ?_
      htrailing
    rw [length_head]
    simp only [tokens, List.length_append]
    omega

/-- Printed methods and white space are put between the comments and the closing brace. -/
theorem exists_grown {text tail : Text}
    (hreads : Reads .html (around front behind B.tokens).toList text)
    (hi : ∀ c ∈ style.indent, isIndent c = true) (r : Rendering style level)
    (rs : List (Rendering style level)) (isFirst : Bool) (htail : ∀ c ∈ tail, isSpace c = true) :
    ∃ G T, B.Grows front behind G r rs T ∧
      Reads .html (around front behind G.tokens).toList (Token.spell front ++
        '\x7b' :: (Token.spell (B.members ++ (B.gap ++ B.comments)) ++
          (Method.appendix style level isFirst ((r :: rs).map (·.decl)) ++
            (tail ++ Token.spell (brace :: behind))))) := by
  have hbrace : Reads .code (brace :: behind) (Token.spell (brace :: behind)) := by
    have hsplit : (around front behind B.tokens).toList =
        (front ++ ⟨.punct, ['\x7b']⟩ :: B.tokens) ++ brace :: behind := by
      simp only [around, List.append_assoc, List.cons_append]
    rw [hsplit] at hreads
    exact .cons (u := []) (scanCode_barrier rfl _) hreads.behind_punct
  obtain ⟨cs, hfollows, hparts⟩ := follows_methods hi r rs htail hbrace
  obtain ⟨c, cs, rfl⟩ : ∃ c cs', cs = c :: cs' := by
    cases cs with
    | nil => cases hparts
    | cons c cs => exact ⟨c, cs, rfl⟩
  have hw : ∀ c ∈ style.newlines (if isFirst then 1 else 2) ++ style.indentation level, isSpace c = true :=
    Rendering.isSpace_gap hi _
  have hbreak : Breaks (style.newlines (if isFirst then 1 else 2) ++ style.indentation level) :=
    Rendering.breaks_gap style level (by split <;> decide)
  rw [List.map_cons, Method.appendix, List.append_assoc _ (Method.appendix ..)]
  generalize style.newlines (if isFirst then 1 else 2) ++ style.indentation level = w at hw hbreak ⊢
  have hsplit : (around front behind B.tokens).toList = front ++ ⟨.punct, ['\x7b']⟩ ::
      ((B.members ++ (B.gap ++ B.comments)) ++ (B.rest ++ brace :: behind)) := by
    simp only [around, tokens, List.append_assoc]
  rw [hsplit] at hreads
  obtain ⟨L', w', hL', hw', hread⟩ := hreads.behind rfl h.getLast?_ended hw (.inr (hbreak.append _))
    hfollows.solid hfollows.reads
  have hchunks : r.Chunks rs behind c cs _ := ⟨hfollows, hparts⟩
  by_cases hc : B.comments = []
  · rw [h.gap hc, hc, List.append_nil, List.append_nil] at hL' hread ⊢
    refine ⟨_, _, grows_gap hchunks hL' hbreak.mem, ?_⟩
    simpa only [around, Grown.tokens, List.nil_append, List.append_assoc] using hread
  · rw [← List.append_assoc] at hL'
    obtain ⟨C', rfl, hkinds⟩ := hL'.split hc
    refine ⟨_, _, h.grows_comments hchunks hc hkinds w', ?_⟩
    simpa only [around, Grown.tokens, List.append_assoc] using hread

end ClassBody.Shaped

end PhpGraft.Tokens
