import KnightCode.Jvm.JavaType

/-!
# Descriptors read back

A type is read of its descriptor, whatever follows, and of nothing else; so are the type of a field and a type at a byte
offset, where any characters may stand before the descriptor. The parameters of a method are read up to the first
closing parenthesis or beyond it: a class name may hold that parenthesis, and then the last parameter and the result end
at the same place.
-/

namespace KnightCode.JavaType

/-- The type has values, and its descriptor can be read. -/
def wellFormed : JavaType → Bool
  | .void => false
  | .object className => className ≠ "" && ';' ∉ className.toList
  | .array element => element.wellFormed
  | _ => true

def isResult (t : JavaType) : Bool := t = .void || t.wellFormed

def descriptors (ts : List JavaType) : String := String.join (ts.map descriptor)

/-! ## One type -/

@[simp] theorem toList_descriptor (t : JavaType) : t.descriptor.toList = t.spell := by simp [descriptor]

theorem isResult_of_wellFormed {t : JavaType} (h : t.wellFormed = true) : t.isResult = true := by simp [isResult, h]

theorem wellFormed_of_isResult {t : JavaType} (h : t.isResult = true) (hvoid : t ≠ .void) : t.wellFormed = true := by
  simpa [isResult, hvoid] using h

theorem ne_void_of_wellFormed {t : JavaType} (h : t.wellFormed = true) : t ≠ .void := by
  rintro rfl
  cases h

theorem cut_at_first {name : List Char} {stop : Char} (h : stop ∉ name) (rest : List Char) :
    (name ++ stop :: rest).takeWhile (· != stop) = name ∧
      (name ++ stop :: rest).dropWhile (· != stop) = stop :: rest := by
  have hpass : ∀ c ∈ name, (c != stop) = true := by
    intro c hc
    simpa using fun heq : c = stop => h (heq ▸ hc)
  rw [List.takeWhile_append_of_pos hpass, List.dropWhile_append_of_pos hpass]
  simp

theorem eq_of_cut {text after : List Char} {stop c : Char} (h : text.dropWhile (· != stop) = c :: after) :
    text = text.takeWhile (· != stop) ++ stop :: after ∧ stop ∉ text.takeWhile (· != stop) := by
  have hstop : c = stop := by
    have hhead := List.head?_dropWhile_not (· != stop) text
    simpa [h] using hhead
  refine ⟨?_, fun hmem => ?_⟩
  · rw [← hstop, ← h, hstop, List.takeWhile_append_dropWhile]
  · simpa using List.all_eq_true.1 List.all_takeWhile stop hmem

theorem read?_spell {t : JavaType} (h : t.isResult = true) (rest : List Char) :
    read? (t.spell ++ rest) = some (t, rest) := by
  induction t with
  | object className =>
    obtain ⟨hne, hname⟩ : className ≠ "" ∧ ';' ∉ className.toList := by simpa [isResult, wellFormed] using h
    obtain ⟨htake, hdrop⟩ := cut_at_first hname rest
    have hread : ∃ c name, className.toList = c :: name :=
      List.exists_cons_of_ne_nil fun hnil => hne (String.toList_eq_nil_iff.1 hnil)
    obtain ⟨c, name, hcons⟩ := hread
    have hback : String.ofList (c :: name) = className := by rw [← hcons, String.ofList_toList]
    rw [spell, List.cons_append, List.append_assoc, List.singleton_append, read?, htake, hdrop, hcons]
    simp only [hback]
  | array element ih =>
    have helement : element.wellFormed = true := by simpa [isResult, wellFormed] using h
    have hread := ih (isResult_of_wellFormed helement)
    rw [spell, List.cons_append, read?, hread]
    cases element with
    | void => cases helement
    | _ => rfl
  | _ => rfl

theorem spell_of_read? {text : List Char} {t : JavaType} {rest : List Char} (h : read? text = some (t, rest)) :
    t.isResult = true ∧ text = t.spell ++ rest := by
  fun_induction read? text generalizing t rest with
  | case10 text c name stop after hdrop htake =>
    cases h
    obtain ⟨hsplit, hnot⟩ := eq_of_cut hdrop
    rw [htake] at hsplit hnot
    refine ⟨by simp [isResult, wellFormed, hnot], ?_⟩
    rw [hsplit]
    simp [spell]
  | case14 text element after hvoid hread ih =>
    cases h
    obtain ⟨hresult, hsplit⟩ := ih hread
    have helement : element.wellFormed = true := wellFormed_of_isResult hresult hvoid
    refine ⟨by simp [isResult, wellFormed, helement], ?_⟩
    rw [hsplit]
    rfl
  | case11 | case12 | case13 | case15 => cases h
  | _ =>
    cases h
    exact ⟨rfl, rfl⟩

/-! ## Offsets -/

theorem charsFrom?_size (front rest : List Char) :
    charsFrom? (String.ofList front).utf8ByteSize (front ++ rest) = some rest := by
  induction front with
  | nil => cases rest <;> rfl
  | cons c front ih =>
    have hpos := c.utf8Size_pos
    rw [String.ofList_cons, String.utf8ByteSize_append, String.utf8ByteSize_singleton]
    -- No character is without bytes, so the offset is not zero and the first character is passed.
    obtain ⟨k, hk⟩ : ∃ k, c.utf8Size + (String.ofList front).utf8ByteSize = k + 1 :=
      Nat.exists_eq_succ_of_ne_zero (by omega)
    have hleft : k + 1 - c.utf8Size = (String.ofList front).utf8ByteSize := by omega
    rw [hk, List.cons_append, charsFrom?, if_pos (by omega), hleft, ih]

theorem front_of_charsFrom? {offset : Nat} {text rest : List Char} (h : charsFrom? offset text = some rest) :
    ∃ front, text = front ++ rest ∧ offset = (String.ofList front).utf8ByteSize := by
  fun_induction charsFrom? offset text with
  | case1 text =>
    cases h
    exact ⟨[], rfl, rfl⟩
  | case3 offset c text hle ih =>
    obtain ⟨front, rfl, hsize⟩ := ih h
    refine ⟨c :: front, rfl, ?_⟩
    rw [String.ofList_cons, String.utf8ByteSize_append, String.utf8ByteSize_singleton]
    omega
  | case2 | case4 => cases h

theorem readAt?_eq_some_iff {text : String} {offset next : Nat} {t : JavaType} :
    readAt? text offset = some (t, next) ↔
      t.isResult = true ∧ ∃ before after : String, text = before ++ t.descriptor ++ after ∧
        offset = before.utf8ByteSize ∧ next = (before ++ t.descriptor).utf8ByteSize := by
  constructor
  · intro h
    obtain ⟨chars, hchars, h⟩ := Option.bind_eq_some_iff.1 h
    obtain ⟨⟨t', rest⟩, hread, h⟩ := Option.bind_eq_some_iff.1 h
    cases h
    obtain ⟨front, hfront, hoffset⟩ := front_of_charsFrom? hchars
    obtain ⟨hresult, rfl⟩ := spell_of_read? hread
    have htext : text = String.ofList front ++ t.descriptor ++ String.ofList rest := by
      simp [← String.toList_inj, hfront]
    refine ⟨hresult, _, _, htext, hoffset, ?_⟩
    rw [htext, String.utf8ByteSize_append, Nat.add_sub_cancel]
  · rintro ⟨hresult, before, after, rfl, rfl, rfl⟩
    have hchars := charsFrom?_size before.toList (t.spell ++ after.toList)
    rw [String.ofList_toList] at hchars
    have hread := read?_spell hresult after.toList
    simp [readAt?, hchars, hread, String.utf8ByteSize_append]

/-! ## Fields -/

theorem ofFieldDescriptor?_eq_some_iff {text : String} {t : JavaType} :
    ofFieldDescriptor? text = some t ↔ t.wellFormed = true ∧ t.descriptor = text := by
  rw [← String.toList_inj, toList_descriptor]
  unfold ofFieldDescriptor?
  constructor
  · intro h
    split at h
    · next t' hread =>
      obtain ⟨hresult, hspell⟩ := spell_of_read? hread
      split at h
      · cases h
      · next hvoid =>
        cases h
        exact ⟨wellFormed_of_isResult hresult hvoid, by rw [hspell, List.append_nil]⟩
    · cases h
  · rintro ⟨hwell, hspell⟩
    have hread := read?_spell (isResult_of_wellFormed hwell) []
    rw [List.append_nil, hspell] at hread
    simp only [hread, if_neg (ne_void_of_wellFormed hwell)]

/-- A text is read as the type of a field exactly if it is the descriptor of that type. Inside any text, a type is read
at the byte offset where its descriptor begins and up to the offset where it ends, and a type that is read somewhere has
its descriptor there. -/
theorem descriptor_read_exactly (t : JavaType) :
    (∀ text, ofFieldDescriptor? text = some t ↔ t.wellFormed = true ∧ t.descriptor = text) ∧
    (∀ before after : String, t.isResult = true →
      readAt? (before ++ t.descriptor ++ after) before.utf8ByteSize =
        some (t, (before ++ t.descriptor).utf8ByteSize)) ∧
    (∀ text offset next, readAt? text offset = some (t, next) →
      t.isResult = true ∧ ∃ before after : String, text = before ++ t.descriptor ++ after ∧
        offset = before.utf8ByteSize ∧ next = (before ++ t.descriptor).utf8ByteSize) := by
  refine ⟨fun text => ofFieldDescriptor?_eq_some_iff, ?_, fun text offset next => readAt?_eq_some_iff.1⟩
  intro before after hresult
  exact readAt?_eq_some_iff.2 ⟨hresult, before, after, rfl, rfl, rfl⟩

/-- Offsets count bytes: the characters before the descriptor and in its class name have two, three and four of them. -/
theorem descriptor_read_exactly_wide :
    wellFormed (.array (.array (.object "é/€"))) = true ∧
    ofFieldDescriptor? "[[Lé/€;" = some (.array (.array (.object "é/€"))) ∧
    readAt? "𝄞[[Lé/€;;V" 4 = some (.array (.array (.object "é/€")), 14) := by
  have hwell : wellFormed (.array (.array (.object "é/€"))) = true := by decide
  obtain ⟨hfield, hat, -⟩ := descriptor_read_exactly (.array (.array (.object "é/€")))
  have hspell : descriptor (.array (.array (.object "é/€"))) = "[[Lé/€;" := by decide +kernel
  rw [hspell] at hfield hat
  exact ⟨hwell, (hfield _).2 ⟨hwell, rfl⟩, hat "𝄞" ";V" (isResult_of_wellFormed hwell)⟩

/-! ## Parentheses and semicolons in a descriptor -/

/-- A descriptor has neither, or it is that of a class or of an array of one, and ends with its only semicolon. -/
theorem spell_plain_or_closed (t : JavaType) :
    (')' ∉ t.spell ∧ ';' ∉ t.spell) ∨
      ∃ front, t.spell = front ++ [';'] ∧ (t.isResult = true → ';' ∉ front) := by
  induction t with
  | object className =>
    refine .inr ⟨'L' :: className.toList, rfl, ?_⟩
    intro h
    have hname : className ≠ "" ∧ ';' ∉ className.toList := by simpa [isResult, wellFormed] using h
    simpa using hname.2
  | array element ih =>
    rcases ih with ⟨hclose, hsemicolon⟩ | ⟨front, hspell, hfront⟩
    · exact .inl (by simpa [spell] using ⟨hclose, hsemicolon⟩)
    · refine .inr ⟨'[' :: front, by rw [spell, hspell]; rfl, ?_⟩
      intro h
      have helement : element.wellFormed = true := by simpa [isResult, wellFormed] using h
      simpa using hfront (isResult_of_wellFormed helement)
  | _ => exact .inl (by decide)

theorem semicolon_after_parenthesis {t : JavaType} {front back : List Char} (h : t.spell = front ++ ')' :: back) :
    ';' ∈ back := by
  rcases t.spell_plain_or_closed with ⟨hnone, -⟩ | ⟨closed, hspell, -⟩
  · exact absurd (by rw [h]; simp) hnone
  · rw [hspell] at h
    rcases List.append_eq_append_iff.1 h with ⟨gap, -, hback⟩ | ⟨gap, -, hback⟩
    · cases gap <;> simp at hback
    · cases gap with
      | nil => simp at hback
      | cons c gap =>
        rw [List.cons_append, List.cons.injEq] at hback
        rw [hback.2]
        simp

theorem semicolon_last {t : JavaType} (hresult : t.isResult = true) {front back : List Char}
    (h : t.spell = front ++ ';' :: back) : back = [] := by
  rcases t.spell_plain_or_closed with ⟨-, hnone⟩ | ⟨closed, hspell, hclosed⟩
  · exact absurd (by rw [h]; simp) hnone
  · rw [hspell] at h
    rcases List.append_eq_append_iff.1 h with ⟨gap, -, hback⟩ | ⟨gap, hgap, hback⟩
    · cases gap with
      | nil => simpa using hback
      | cons c gap => simp at hback
    · cases gap with
      | nil => simpa using hback
      | cons c gap =>
        rw [List.cons_append, List.cons.injEq] at hback
        exact absurd (by rw [hgap, ← hback.1]; simp) (hclosed hresult)

theorem spell_ne_parenthesis (t : JavaType) (rest : List Char) : t.spell ≠ ')' :: rest := by
  cases t <;> simp [spell]

theorem semicolon_after_parenthesis_in {ts : List JavaType} {front back : List Char}
    (h : ts.flatMap spell = front ++ ')' :: back) : ';' ∈ back := by
  induction ts generalizing front with
  | nil => simp at h
  | cons t ts ih =>
    rw [List.flatMap_cons] at h
    rcases List.append_eq_append_iff.1 h with ⟨gap, hfront, hrest⟩ | ⟨gap, hspell, hrest⟩
    · exact ih hrest
    · cases gap with
      | nil => exact ih (hrest.symm.trans (List.nil_append _).symm)
      | cons c gap =>
        rw [List.cons_append, List.cons.injEq] at hrest
        obtain ⟨rfl, rfl⟩ := hrest
        exact List.mem_append_left _ (semicolon_after_parenthesis hspell)

/-! ## The parameters -/

theorem spells_of_readUntil? {n : Nat} {acc params : List JavaType} {text : List Char}
    (h : readUntil? n acc text = some params) :
    ∃ new, params = acc.reverse ++ new ∧ (∀ t ∈ new, t.wellFormed = true) ∧ new.flatMap spell <+: text ∧
      n ≤ (new.flatMap spell).length := by
  fun_induction readUntil? n acc text with
  | case1 acc text => exact ⟨[], by simpa using h.symm, by simp, List.nil_prefix, Nat.zero_le _⟩
  | case2 | case4 => cases h
  | case3 n acc text hn t rest hread hvoid ih =>
    obtain ⟨new, hparams, hnew, ⟨left, hleft⟩, hlength⟩ := ih h
    obtain ⟨hresult, rfl⟩ := spell_of_read? hread
    refine ⟨t :: new, by simp [hparams], ?_, ⟨left, by simp [← hleft]⟩, ?_⟩
    · exact List.forall_mem_cons.2 ⟨wellFormed_of_isResult hresult hvoid, hnew⟩
    · rw [List.flatMap_cons, List.length_append]
      omega

theorem readUntil?_spells {n : Nat} {new : List JavaType} (hnew : ∀ t ∈ new, t.wellFormed = true)
    (hmore : ∀ before t after, new = before ++ t :: after → (before.flatMap spell).length < n)
    (hlength : n ≤ (new.flatMap spell).length) (acc : List JavaType) (rest : List Char) :
    readUntil? n acc (new.flatMap spell ++ rest) = some (acc.reverse ++ new) := by
  induction new generalizing n acc with
  | nil =>
    obtain rfl : n = 0 := by simpa using hlength
    simp [readUntil?]
  | cons t new ih =>
    have hn : 0 < n := hmore [] t new rfl
    obtain ⟨ht, hnew⟩ := List.forall_mem_cons.1 hnew
    rw [List.flatMap_cons, List.length_append] at hlength
    rw [readUntil?, if_neg (Nat.ne_of_gt hn), List.flatMap_cons, List.append_assoc,
      read?_spell (isResult_of_wellFormed ht)]
    simp only [if_neg (ne_void_of_wellFormed ht)]
    rw [ih hnew ?_ (by omega)]
    · simp
    · intro before u after hsplit
      have hlt := hmore (t :: before) u after (by rw [hsplit]; rfl)
      rw [List.flatMap_cons, List.length_append] at hlt
      omega

/-! ## Methods -/

@[simp] theorem toList_descriptors (ts : List JavaType) : (descriptors ts).toList = ts.flatMap spell := by
  simp [descriptors, String.toList_join, List.flatMap_map]

/-- A method descriptor is cut at its first closing parenthesis. The result is what follows, and the parameters are read
from the start until they reach the parenthesis. -/
theorem ofMethodDescriptor?_eq_some {text : String} {params : List JavaType} {result : JavaType} :
    ofMethodDescriptor? text = some (params, result) ↔
      result.isResult = true ∧ ∃ front, ')' ∉ front ∧ text.toList = '(' :: (front ++ ')' :: result.spell) ∧
        readUntil? front.length [] (front ++ ')' :: result.spell) = some params := by
  unfold ofMethodDescriptor?
  constructor
  · intro h
    split at h
    · next rest hrest =>
      simp only at h
      split at h
      · next c after hafter =>
        obtain ⟨hsplit, hfront⟩ := eq_of_cut hafter
        obtain ⟨params', hparams, h⟩ := Option.bind_eq_some_iff.1 h
        split at h
        · next result' hresult =>
          cases h
          obtain ⟨hok, hspell⟩ := spell_of_read? hresult
          rw [List.append_nil] at hspell
          subst hspell
          exact ⟨hok, _, hfront, by rw [hrest, ← hsplit], by rw [← hsplit]; exact hparams⟩
        · cases h
      · cases h
    · cases h
  · rintro ⟨hresult, front, hfront, htext, hparams⟩
    obtain ⟨htake, hdrop⟩ := cut_at_first hfront result.spell
    have hread := read?_spell hresult []
    rw [List.append_nil] at hread
    simp [htext, htake, hdrop, hparams, hread]

/-- The parameters reach just to the parenthesis, or the last of them goes on to the end of the descriptor. -/
theorem spells_reach {params : List JavaType} {result : JavaType} {front : List Char} (hresult : result.isResult = true)
    (h : params.flatMap spell <+: front ++ ')' :: result.spell) (hlength : front.length ≤ (params.flatMap spell).length) :
    params.flatMap spell = front ∨ params.flatMap spell = front ++ ')' :: result.spell := by
  obtain ⟨left, hleft⟩ := h
  rcases List.append_eq_append_iff.1 hleft with ⟨gap, hfront, -⟩ | ⟨gap, hspells, hgap⟩
  · have hnil : gap = [] := by
      rw [hfront, List.length_append] at hlength
      exact List.length_eq_zero_iff.1 (by omega)
    exact .inl (by rw [hfront, hnil, List.append_nil])
  · cases gap with
    | nil => exact .inl (by rw [hspells, List.append_nil])
    | cons c gap =>
      rw [List.cons_append, List.cons.injEq] at hgap
      obtain ⟨rfl, hgap⟩ := hgap
      obtain ⟨before, after, rfl⟩ := List.append_of_mem (semicolon_after_parenthesis_in hspells)
      have hend : after ++ left = [] :=
        semicolon_last hresult (by rw [hgap, List.append_assoc, List.cons_append])
      have hleft : left = [] := (List.append_eq_nil_iff.1 hend).2
      exact .inr (by rw [hspells, hgap, hleft, List.append_nil])

theorem spells_short {params : List JavaType} {result : JavaType} {front : List Char} (hresult : result.isResult = true)
    (h : params.flatMap spell = front ∨ params.flatMap spell = front ++ ')' :: result.spell)
    {before after : List JavaType} {t : JavaType} (hsplit : params = before ++ t :: after) :
    (before.flatMap spell).length < front.length := by
  have hpos := t.length_spell_pos
  rw [hsplit, List.flatMap_append, List.flatMap_cons] at h
  rcases h with rfl | h
  · simp only [List.length_append]
    omega
  · refine Nat.lt_of_not_le fun hlong => ?_
    obtain ⟨gap, hbefore, hgap⟩ : ∃ gap, before.flatMap spell = front ++ gap ∧
        ')' :: result.spell = gap ++ (t.spell ++ after.flatMap spell) := by
      rcases List.append_eq_append_iff.1 h with ⟨gap, rfl, hgap⟩ | hlater
      · have hnil : gap = [] := by
          rw [List.length_append] at hlong
          exact List.length_eq_zero_iff.1 (by omega)
        exact ⟨[], by simp [hnil], by simpa [hnil] using hgap.symm⟩
      · exact hlater
    cases gap with
    | nil =>
      obtain ⟨c, rest, hspell⟩ := List.exists_cons_of_length_pos hpos
      rw [hspell, List.nil_append, List.cons_append, List.cons.injEq] at hgap
      exact t.spell_ne_parenthesis rest (by rw [hspell, hgap.1])
    | cons c gap =>
      rw [List.cons_append, List.cons.injEq] at hgap
      obtain ⟨rfl, hgap⟩ := hgap
      obtain ⟨first, last, rfl⟩ := List.append_of_mem (semicolon_after_parenthesis_in hbefore)
      rw [List.append_assoc, List.cons_append] at hgap
      have hend := congrArg List.length (semicolon_last hresult hgap)
      simp only [List.length_append, List.length_nil] at hend
      omega

theorem readUntil?_eq_some_iff {params : List JavaType} {result : JavaType} (hresult : result.isResult = true)
    (front : List Char) :
    readUntil? front.length [] (front ++ ')' :: result.spell) = some params ↔
      (∀ t ∈ params, t.wellFormed = true) ∧
        (params.flatMap spell = front ∨ params.flatMap spell = front ++ ')' :: result.spell) := by
  constructor
  · intro h
    obtain ⟨new, rfl, hnew, hspells, hlength⟩ := spells_of_readUntil? h
    exact ⟨hnew, spells_reach hresult hspells hlength⟩
  · rintro ⟨hparams, hreach⟩
    have hspells : ∃ rest, front ++ ')' :: result.spell = params.flatMap spell ++ rest := by
      rcases hreach with heq | heq
      · exact ⟨_, by rw [heq]⟩
      · exact ⟨[], by rw [heq, List.append_nil]⟩
    have hlength : front.length ≤ (params.flatMap spell).length := by
      rcases hreach with heq | heq <;> simp [heq]
    obtain ⟨rest, hrest⟩ := hspells
    rw [hrest]
    exact readUntil?_spells hparams (fun _ _ _ => spells_short hresult hreach) hlength [] rest

/-- A method descriptor is read in two cases. It is the descriptors of the parameters in parentheses and that of the
result, and no class name of a parameter has a closing parenthesis in it. Or it has no parenthesis after the parameters:
the first one stands in the class name of the last parameter, and what follows it there is at once the descriptor of the
result. -/
theorem method_descriptor_read_iff (text : String) (params : List JavaType) (result : JavaType) :
    ofMethodDescriptor? text = some (params, result) ↔
      (∀ t ∈ params, t.wellFormed = true) ∧ result.isResult = true ∧
      (text = "(" ++ descriptors params ++ ")" ++ result.descriptor ∧ ')' ∉ (descriptors params).toList ∨
        text = "(" ++ descriptors params ∧
          ∃ front : String, ')' ∉ front.toList ∧ descriptors params = front ++ ")" ++ result.descriptor) := by
  rw [ofMethodDescriptor?_eq_some]
  simp only [← String.toList_inj, String.toList_append, toList_descriptors, toList_descriptor]
  constructor
  · rintro ⟨hresult, front, hfront, htext, hread⟩
    obtain ⟨hparams, heq | heq⟩ := (readUntil?_eq_some_iff hresult front).1 hread
    · exact ⟨hparams, hresult, .inl ⟨by simp [htext, heq], by rwa [heq]⟩⟩
    · exact ⟨hparams, hresult, .inr ⟨by simp [htext, heq], String.ofList front, by simpa using hfront, by simp [heq]⟩⟩
  · rintro ⟨hparams, hresult, ⟨htext, hfront⟩ | ⟨htext, front, hfront, heq⟩⟩
    · exact ⟨hresult, _, hfront, by simpa using htext, (readUntil?_eq_some_iff hresult _).2 ⟨hparams, .inl rfl⟩⟩
    · have hreach : params.flatMap spell = front.toList ++ ')' :: result.spell := by simpa using heq
      exact ⟨hresult, front.toList, hfront, by simpa [hreach] using htext,
        (readUntil?_eq_some_iff hresult _).2 ⟨hparams, .inr hreach⟩⟩

/-- A parameter runs over the parenthesis, so a descriptor is read that is that of no method. And one is not read that is
that of a method, since a class name has a parenthesis in it. -/
theorem parenthesis_in_class_name :
    ofMethodDescriptor? "(LX)La;" = some ([.object "X)La"], .object "a") ∧
    (∀ (params : List JavaType) (result : JavaType), (∀ t ∈ params, t.wellFormed = true) →
      "(LX)La;" ≠ "(" ++ descriptors params ++ ")" ++ result.descriptor) ∧
    ofMethodDescriptor? "(La)b;)V" = none ∧
    wellFormed (.object "a)b") = true ∧
    "(La)b;)V" = "(" ++ descriptors [.object "a)b"] ++ ")" ++ descriptor .void := by
  refine ⟨by decide +kernel, ?_, by decide +kernel, by decide, by decide +kernel⟩
  intro params result hparams heq
  have htext : "LX)La;".toList = params.flatMap spell ++ ')' :: result.spell := by
    have := congrArg String.toList heq
    simpa using this
  cases params with
  | nil => simp at htext
  | cons t params =>
    have hread := read?_spell (isResult_of_wellFormed (hparams t (.head _))) (params.flatMap spell ++ ')' :: result.spell)
    rw [← List.append_assoc, ← List.flatMap_cons, ← htext] at hread
    have hall : read? "LX)La;".toList = some (.object "X)La", []) := by decide +kernel
    rw [hall] at hread
    simp at hread

end KnightCode.JavaType
