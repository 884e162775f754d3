import ArtifactHarvest.Json.Reading
import ArtifactHarvest.Proofs.Json.Lexing

/-!
Reading a text gives back the value whose tokens are laid out in it (`Value.parse?_of_layout`). The
tokens of a value take the reader from where it awaits a value to where the value is delivered
(`Value.after_tokens`), whatever is open around it, and they are found one by one, since of two that
stand side by side one is a mark or a string (`Value.separated_tokens`).
-/

namespace ArtifactHarvest.Json

/-! ### Tokens side by side -/

theorem Separated.append {front back : List Token} (hfront : Separated front)
    (hback : Separated back) (hmeet : ∀ token ∈ back.head?, token.isBare = false) :
    Separated (front ++ back) :=
  List.isChain_append.mpr ⟨hfront, hback, fun _ _ token htoken => .inr (hmeet token htoken)⟩

theorem Separated.cons {token : Token} {rest : List Token} (htoken : token.isBare = false)
    (hrest : Separated rest) : Separated (token :: rest) :=
  List.isChain_cons.mpr ⟨fun _ _ => .inl htoken, hrest⟩

theorem Separated.singleton (token : Token) : Separated [token] :=
  List.isChain_singleton token

/-- What follows the first item or member begins with a mark. -/
theorem head_itemTokens (vs : List Value) (m : Mark) :
    ∀ token ∈ (itemTokens vs ++ [Token.mark m]).head?, token.isBare = false := by
  intro token htoken
  cases vs with
  | nil =>
      obtain rfl := Option.mem_some.mp htoken
      rfl
  | cons =>
      rw [itemTokens] at htoken
      obtain rfl := Option.mem_some.mp htoken
      rfl

theorem head_memberTokens (ms : List (Content × Value)) (m : Mark) :
    ∀ token ∈ (memberTokens ms ++ [Token.mark m]).head?, token.isBare = false := by
  intro token htoken
  cases ms with
  | nil =>
      obtain rfl := Option.mem_some.mp htoken
      rfl
  | cons =>
      rw [memberTokens] at htoken
      obtain rfl := Option.mem_some.mp htoken
      rfl

mutual

theorem Value.separated_tokens : (v : Value) → Separated v.tokens
  | .null | .bool _ | .number _ | .string _ => by
      rw [Value.tokens]
      exact .singleton _
  | .array [] | .object [] => by
      rw [Value.tokens]
      exact .cons rfl (.singleton _)
  | .array (v :: vs) => by
      rw [Value.tokens]
      exact .cons rfl (v.separated_tokens.append (separated_items vs .closeArray)
        (head_itemTokens vs .closeArray))
  | .object ((key, v) :: ms) => by
      rw [Value.tokens]
      exact .cons rfl (.cons rfl (.cons rfl (v.separated_tokens.append
        (separated_members ms .closeObject) (head_memberTokens ms .closeObject))))

theorem separated_items : (vs : List Value) → (m : Mark) → Separated (itemTokens vs ++ [.mark m])
  | [], m => .singleton _
  | v :: vs, m => by
      rw [itemTokens, List.cons_append, List.append_assoc]
      exact .cons rfl (v.separated_tokens.append (separated_items vs m) (head_itemTokens vs m))

theorem separated_members : (ms : List (Content × Value)) → (m : Mark) →
    Separated (memberTokens ms ++ [.mark m])
  | [], m => .singleton _
  | (key, v) :: ms, m => by
      rw [memberTokens, List.cons_append, List.cons_append, List.cons_append, List.append_assoc]
      exact .cons rfl (.cons rfl (.cons rfl
        (v.separated_tokens.append (separated_members ms m) (head_memberTokens ms m))))

end

/-! ### The reader -/

namespace Reader

/-- The reader so many tokens further. -/
def after (r : Reader) (tokens : List Token) : Option Reader :=
  tokens.foldlM step r

theorem after_append (r : Reader) (front back : List Token) :
    r.after (front ++ back) = (r.after front).bind (·.after back) :=
  List.foldlM_append

theorem after_singleton (r : Reader) (token : Token) : r.after [token] = r.step token := by
  simp [after]

theorem after_cons {r next : Reader} {token : Token} (h : r.step token = some next)
    (rest : List Token) : r.after (token :: rest) = next.after rest := by
  simp [after, h]

/-- Where an array was just opened, its first item is read like any value. -/
theorem after_firstItem (v : Value) (frames : List Frame) :
    after ⟨frames, .firstItem⟩ v.tokens = after ⟨frames, .value⟩ v.tokens := by
  obtain ⟨first, rest, htokens, hfirst⟩ : ∃ first rest,
      v.tokens = first :: rest ∧ first ≠ .mark .closeArray := by
    cases v with
    | null | bool | number | string => exact ⟨_, _, by rw [Value.tokens], by simp⟩
    | array vs => cases vs <;> exact ⟨_, _, by rw [Value.tokens], by simp⟩
    | object ms => cases ms <;> exact ⟨_, _, by rw [Value.tokens], by simp⟩
  have hstep : step ⟨frames, .firstItem⟩ first = step ⟨frames, .value⟩ first := by
    simp [step, hfirst]
  simp [after, htokens, hstep]

end Reader

open Reader (deliver)

mutual

/-- **The tokens of a value deliver it.** -/
theorem Value.after_tokens : (v : Value) → (frames : List Frame) →
    Reader.after ⟨frames, .value⟩ v.tokens = deliver frames v
  | .null, frames | .bool _, frames | .number _, frames | .string _, frames => by
      rw [Value.tokens, Reader.after_singleton]
      rfl
  | .array [], frames => by
      have hopen : Reader.step ⟨frames, .value⟩ (.mark .openArray) =
          some ⟨.items [] :: frames, .firstItem⟩ := rfl
      rw [Value.tokens, Reader.after_cons hopen, Reader.after_singleton]
      rfl
  | .object [], frames => by
      have hopen : Reader.step ⟨frames, .value⟩ (.mark .openObject) =
          some ⟨.members [] :: frames, .firstKey⟩ := rfl
      rw [Value.tokens, Reader.after_cons hopen, Reader.after_singleton]
      rfl
  | .array (v :: vs), frames => by
      have hopen : Reader.step ⟨frames, .value⟩ (.mark .openArray) =
          some ⟨.items [] :: frames, .firstItem⟩ := rfl
      rw [Value.tokens, Reader.after_cons hopen, Reader.after_append, Reader.after_firstItem,
        v.after_tokens, deliver, Option.bind_some, after_itemTokens vs [v] frames]
      rfl
  | .object ((key, v) :: ms), frames => by
      have hopen : Reader.step ⟨frames, .value⟩ (.mark .openObject) =
          some ⟨.members [] :: frames, .firstKey⟩ := rfl
      have hkey : Reader.step ⟨.members [] :: frames, .firstKey⟩ (.string key) =
          some ⟨.members [] :: frames, .colon key⟩ := rfl
      have hcolon : Reader.step ⟨.members [] :: frames, .colon key⟩ (.mark .colon) =
          some ⟨.member key [] :: frames, .value⟩ := rfl
      rw [Value.tokens, Reader.after_cons hopen, Reader.after_cons hkey, Reader.after_cons hcolon,
        Reader.after_append, v.after_tokens, deliver, Option.bind_some,
        after_memberTokens ms [(key, v)] frames]
      rfl

/-- The items behind a comma go into the array, up to its end. -/
theorem after_itemTokens : (vs soFar : List Value) → (outer : List Frame) →
    Reader.after ⟨.items soFar :: outer, .comma⟩ (itemTokens vs ++ [.mark .closeArray]) =
      deliver outer (.array (soFar.reverse ++ vs))
  | [], soFar, outer => by
      rw [itemTokens, List.nil_append, Reader.after_singleton, List.append_nil]
      rfl
  | v :: vs, soFar, outer => by
      have hcomma : Reader.step ⟨.items soFar :: outer, .comma⟩ (.mark .comma) =
          some ⟨.items soFar :: outer, .value⟩ := rfl
      rw [itemTokens, List.cons_append, List.append_assoc, Reader.after_cons hcomma,
        Reader.after_append, v.after_tokens, deliver, Option.bind_some,
        after_itemTokens vs (v :: soFar) outer, List.reverse_cons, List.append_assoc,
        List.singleton_append]

/-- The members behind a comma go into the object, up to its end. -/
theorem after_memberTokens : (ms soFar : List (Content × Value)) → (outer : List Frame) →
    Reader.after ⟨.members soFar :: outer, .comma⟩ (memberTokens ms ++ [.mark .closeObject]) =
      deliver outer (.object (soFar.reverse ++ ms))
  | [], soFar, outer => by
      rw [memberTokens, List.nil_append, Reader.after_singleton, List.append_nil]
      rfl
  | (key, v) :: ms, soFar, outer => by
      have hcomma : Reader.step ⟨.members soFar :: outer, .comma⟩ (.mark .comma) =
          some ⟨.members soFar :: outer, .key⟩ := rfl
      have hkey : Reader.step ⟨.members soFar :: outer, .key⟩ (.string key) =
          some ⟨.members soFar :: outer, .colon key⟩ := rfl
      have hcolon : Reader.step ⟨.members soFar :: outer, .colon key⟩ (.mark .colon) =
          some ⟨.member key soFar :: outer, .value⟩ := rfl
      rw [memberTokens, List.cons_append, List.cons_append, List.cons_append, List.append_assoc,
        Reader.after_cons hcomma, Reader.after_cons hkey, Reader.after_cons hcolon,
        Reader.after_append, v.after_tokens, deliver, Option.bind_some,
        after_memberTokens ms ((key, v) :: soFar) outer, List.reverse_cons, List.append_assoc,
        List.singleton_append]

end

/-- **A value is read from every text that spells it.** -/
theorem Value.parse?_of_layout {v : Value} {text : String} (h : Layout v.tokens text.toList) :
    Value.parse? text = some v := by
  have hread : Value.ofTokens? v.tokens = some v := by
    have hafter := v.after_tokens []
    rw [Reader.after] at hafter
    rw [Value.ofTokens?, Reader.start, hafter]
    rfl
  rw [Value.parse?, tokens?_of_layout h v.separated_tokens, Option.bind_some, hread]

end ArtifactHarvest.Json
