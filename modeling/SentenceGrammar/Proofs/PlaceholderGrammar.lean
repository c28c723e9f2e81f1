import SentenceGrammar.Proofs.PatternWords

/-!
# The language of placeholders

A placeholder is a name, what it stands for, and perhaps a quantifier, with colons between them and
braces around them. What the scanners read is just what is written in this language, and they leave
what is behind it.
-/
namespace SentenceGrammar

/-! ### Targets -/

/-- The inside of a character class: every bracket that would close it has a backslash, and every
backslash has a character behind it. -/
inductive ClassBody : List Char → Prop where
  | nil : ClassBody []
  | plain {c : Char} {rest : List Char} (ordinary : c ≠ '\\' ∧ c ≠ ']') (others : ClassBody rest) :
      ClassBody (c :: rest)
  | escaped (c : Char) {rest : List Char} (others : ClassBody rest) : ClassBody ('\\' :: c :: rest)

/-- The written forms of a target. The name of a built-in type always means this type. -/
inductive TargetText : List Char → Target → Prop where
  | charClass {body : List Char} {set : CharClass} (inside : ClassBody body)
      (accepted : CharClass.read (String.ofList body) = .ok set) :
      TargetText ('[' :: body ++ [']']) (.charClass set)
  | builtin {type : Builtin} {text : List Char} (padded : Padded type.name.toList text) :
      TargetText text (.builtin type)
  | named {type : String} {text : List Char} (identifier : Identifier type.toList)
      (other : ∀ builtin : Builtin, builtin.name ≠ type) (padded : Padded type.toList text) :
      TargetText text (.named type)

/-- What a name means where a target is expected. -/
def Target.ofName (type : List Char) : Target :=
  match Builtin.ofName? (String.ofList type) with
  | some known => .builtin known
  | none => .named (String.ofList type)

/-- What follows a target: nothing, or a quantifier behind a colon. -/
inductive CountText : List Char → Quantifier → Prop where
  | nil : CountText [] .one
  | colon {word text : List Char} {quantifier : Quantifier}
      (written : QuantifierText word quantifier) (padded : Padded word text) :
      CountText (':' :: text) quantifier

/-- If one step after the other succeeds, both do. -/
theorem exists_of_bind_ok {ε α β : Type} {first : Except ε α} {next : α → Except ε β} {result : β}
    (succeeds : first >>= next = .ok result) : ∃ a, first = .ok a ∧ next a = .ok result := by
  cases first with
  | error _ => cases succeeds
  | ok a => exact ⟨a, rfl, succeeds⟩

namespace Pattern

variable {opening cursor next stop : Cursor}

/-- The body of a character class goes up to the first bracket without a backslash. -/
theorem readClassBody_eq_some_iff {text body left : List Char} :
    readClassBody text = some (body, left) ↔
      ClassBody body ∧ text = body ++ ']' :: left := by
  fun_induction readClassBody text generalizing body with
  | case1 => simp
  | case2 =>
    refine ⟨nofun, ?_⟩
    rintro ⟨inside, same⟩
    cases inside <;> simp_all
  | case3 c rest ih =>
    rw [Option.map_eq_some_iff]
    constructor
    · rintro ⟨⟨inner, behind⟩, read, same⟩
      obtain ⟨rfl, rfl⟩ := Prod.mk.inj same
      obtain ⟨inside, rfl⟩ := ih.mp read
      exact ⟨.escaped c inside, rfl⟩
    · rintro ⟨inside, same⟩
      cases inside with
      | nil => cases same
      | plain ordinary => exact absurd (List.cons.inj same).1.symm ordinary.1
      | escaped d others =>
        obtain ⟨rfl, behind⟩ := List.cons.inj (List.cons.inj same).2
        exact ⟨(_, left), ih.mpr ⟨others, behind⟩, rfl⟩
  | case4 rest =>
    rw [Option.some.injEq, Prod.mk.injEq]
    constructor
    · rintro ⟨rfl, rfl⟩
      exact ⟨.nil, rfl⟩
    · rintro ⟨inside, same⟩
      cases inside with
      | nil => exact ⟨rfl, (List.cons.inj same).2⟩
      | plain ordinary => exact absurd (List.cons.inj same).1.symm ordinary.2
      | escaped => cases same
  | case5 c rest single unescaped other ih =>
    rw [Option.map_eq_some_iff]
    constructor
    · rintro ⟨⟨inner, behind⟩, read, same⟩
      obtain ⟨rfl, rfl⟩ := Prod.mk.inj same
      obtain ⟨inside, rfl⟩ := ih.mp read
      refine ⟨.plain ⟨?_, other⟩ inside, rfl⟩
      rintro rfl
      -- Something is behind the backslash: the body goes on, or the bracket closes.
      obtain ⟨d, others, front⟩ :=
        List.exists_cons_of_ne_nil (List.append_ne_nil_of_right_ne_nil inner (List.cons_ne_nil _ _))
      exact unescaped d others rfl front
    · rintro ⟨inside, same⟩
      cases inside with
      | nil => exact absurd (List.cons.inj same).1 other
      | plain ordinary others =>
        obtain ⟨rfl, behind⟩ := List.cons.inj same
        exact ⟨(_, left), ih.mpr ⟨others, behind⟩, rfl⟩
      | escaped d others =>
        obtain ⟨rfl, behind⟩ := List.cons.inj same
        exact (unescaped _ _ rfl behind).elim

/-- The text up to a stop has no stop and no opening brace in it. -/
theorem readUntil_ok_iff {stops text : List Char} :
    readUntil stops opening cursor = .ok (text, next) ↔
      (∀ c ∈ text, c ∉ stops ∧ c ≠ '{') ∧
        ∃ c ∈ stops, ∃ rest, cursor.rest = text ++ c :: rest ∧ next = cursor.past text (c :: rest) := by
  unfold readUntil
  dsimp only
  constructor
  · intro read
    split at read
    next => cases read
    next c rest left =>
      split at read
      next stop =>
        obtain ⟨rfl, rfl⟩ := Prod.mk.inj (Except.ok.inj read)
        refine ⟨fun d member => ?_, c, by simpa using stop, rest, ?_, ?_⟩
        · simpa using List.all_eq_true.mp List.all_takeWhile d member
        · exact left ▸ List.takeWhile_append_dropWhile.symm
        · exact left ▸ rfl
      next => cases read
  · rintro ⟨plain, c, stop, rest, written, rfl⟩
    -- What is skipped is the text up to the stop, as it has no special character in it.
    have special : ∀ c ∈ text, (!(stops.contains c || c == '{')) = true := by
      simpa using plain
    have front : cursor.rest.takeWhile (fun c => !(stops.contains c || c == '{')) = text := by
      rw [written, List.takeWhile_append_of_pos special]
      simp [stop]
    have back : cursor.rest.dropWhile (fun c => !(stops.contains c || c == '{')) = c :: rest := by
      rw [written, List.dropWhile_append_of_pos special]
      simp [stop]
    rw [Cursor.skipWhile, front, back]
    simp [Cursor.past, stop]

theorem readTarget_sound {name : List Char} {target : Target}
    (read : readTarget name opening cursor = .ok (target, next)) :
    ∃ text, TargetText text target ∧ cursor.rest = text ++ next.rest := by
  unfold readTarget at read
  split at read
  next inside opened =>
    split at read
    next => cases read
    next body left closed =>
      obtain ⟨inside, rfl⟩ := readClassBody_eq_some_iff.mp closed
      dsimp only at read
      split at read
      next set accepted =>
        obtain ⟨rfl, rfl⟩ := Prod.mk.inj (Except.ok.inj read)
        refine ⟨'[' :: body ++ [']'], .charClass inside accepted, ?_⟩
        simp [opened, Cursor.past]
      next => cases read
  next =>
    obtain ⟨⟨written, behind⟩, found, read⟩ := exists_of_bind_ok read
    obtain ⟨-, c, -, rest, here, rfl⟩ := readUntil_ok_iff.mp found
    dsimp only at read
    split at read
    next => cases read
    split at read
    next builtin known =>
      obtain ⟨rfl, rfl⟩ := Prod.mk.inj (Except.ok.inj read)
      have padded : Padded builtin.name.toList written := by
        rw [Builtin.ofName?_eq_some_iff.mp known, String.toList_ofList]
        exact padded_trim written
      exact ⟨written, .builtin padded, here⟩
    next unknown =>
      split at read
      next identifier =>
        obtain ⟨rfl, rfl⟩ := Prod.mk.inj (Except.ok.inj read)
        refine ⟨written, .named ?_ (fun builtin same => ?_) ?_, here⟩
        · rw [String.toList_ofList]
          exact isIdentifier_iff.mp identifier
        · rw [Builtin.ofName?_eq_some_iff.mpr same] at unknown
          cases unknown
        · rw [String.toList_ofList]
          exact padded_trim written
      next => cases read

/-- A padded name is read up to the colon or the brace behind it. -/
theorem readUntil_padded {name text rest : List Char} {c : Char} (identifier : Identifier name)
    (padded : Padded name text) (stop : c ∈ [':', '}']) (here : cursor.rest = text ++ c :: rest) :
    readUntil [':', '}'] opening cursor = .ok (text, cursor.past text (c :: rest)) := by
  refine readUntil_ok_iff.mpr ⟨fun d member => ?_, c, stop, rest, here, rfl⟩
  have plain := padded.plain identifier.plain d member
  simp only [delimiters, List.mem_cons, List.not_mem_nil, or_false, not_or] at plain ⊢
  exact ⟨⟨plain.1, plain.2.2.1⟩, plain.2.1⟩

theorem readTarget_padded {name type text rest : List Char} {c : Char}
    (identifier : Identifier type) (padded : Padded type text) (stop : c ∈ [':', '}'])
    (here : cursor.rest = text ++ c :: rest) :
    readTarget name opening cursor = .ok (Target.ofName type, cursor.past text (c :: rest)) := by
  have found : readUntil [':', '}'] opening cursor = .ok (text, cursor.past text (c :: rest)) :=
    readUntil_padded identifier padded stop here
  have trimmed := identifier.solid.trim_eq padded
  unfold readTarget
  split
  next inside opened =>
    -- Neither the text nor what follows it begins with a bracket.
    cases text with
    | nil =>
      obtain rfl : '[' = c := (List.cons.inj (opened.symm.trans here)).1
      exact absurd stop (by decide)
    | cons d text =>
      obtain rfl : '[' = d := (List.cons.inj (opened.symm.trans here)).1
      exact absurd (padded.plain identifier.plain '[' List.mem_cons_self) (by decide)
  next =>
    rw [found]
    change (if Text.trim text = [] then _ else _) = _
    rw [trimmed, if_neg identifier.1]
    unfold Target.ofName
    cases Builtin.ofName? (String.ofList type) with
    | some builtin => rfl
    | none =>
      change (if isIdentifier type = true then _ else _) = _
      rw [if_pos (isIdentifier_iff.mpr identifier)]
      rfl

theorem readTarget_complete {name text rest : List Char} {target : Target} {c : Char}
    (written : TargetText text target) (stop : c ∈ [':', '}'])
    (here : cursor.rest = text ++ c :: rest) :
    readTarget name opening cursor = .ok (target, cursor.past text (c :: rest)) := by
  cases written with
  | @charClass body set inside accepted =>
    -- A class is read up to its own bracket, whatever is in it.
    have opened : cursor.rest = '[' :: (body ++ ']' :: c :: rest) := by
      simp [here]
    unfold readTarget
    split
    next inner same =>
      obtain rfl : body ++ ']' :: c :: rest = inner :=
        (List.cons.inj (opened.symm.trans same)).2
      rw [readClassBody_eq_some_iff.mpr ⟨inside, rfl⟩]
      dsimp only
      rw [accepted]
    next other => exact (other _ opened).elim
  | @builtin type _ padded =>
    rw [readTarget_padded type.identifier padded stop here, Target.ofName, String.ofList_toList,
      Builtin.ofName?_eq_some_iff.mpr rfl]
  | @named type _ identifier other padded =>
    have unknown : Builtin.ofName? type = none := by
      cases known : Builtin.ofName? type with
      | none => rfl
      | some builtin => exact absurd (Builtin.ofName?_eq_some_iff.mp known) (other builtin)
    rw [readTarget_padded identifier padded stop here, Target.ofName, String.ofList_toList, unknown]

theorem readQuantifier_sound {quantifier : Quantifier} {target : Cursor}
    (read : readQuantifier opening target cursor = .ok (quantifier, stop)) :
    ∃ text, CountText text quantifier ∧ cursor.rest = text ++ '}' :: stop.rest := by
  unfold readQuantifier at read
  split at read
  next => cases read
  next rest here =>
    obtain ⟨rfl, rfl⟩ := Prod.mk.inj (Except.ok.inj read)
    exact ⟨[], .nil, here⟩
  next rest here =>
    obtain ⟨⟨text, behind⟩, found, read⟩ := exists_of_bind_ok read
    obtain ⟨-, c, closes, left, written, rfl⟩ := readUntil_ok_iff.mp found
    obtain rfl := List.mem_singleton.mp closes
    dsimp only at read
    split at read
    next known =>
      obtain ⟨rfl, rfl⟩ := Prod.mk.inj (Except.ok.inj read)
      refine ⟨':' :: text, .colon (Quantifier.read?_eq_some_iff.mp known) (padded_trim text), ?_⟩
      change rest = text ++ '}' :: left at written
      simp [here, written, Cursor.past]
    next => cases read
  next => cases read

theorem readQuantifier_complete {quantifier : Quantifier} {target : Cursor} {text rest : List Char}
    (written : CountText text quantifier) (here : cursor.rest = text ++ '}' :: rest) :
    ∃ stop, readQuantifier opening target cursor = .ok (quantifier, stop) ∧ stop.rest = rest := by
  cases written with
  | nil =>
    refine ⟨cursor.past ['}'] rest, ?_, rfl⟩
    unfold readQuantifier
    rw [here]
    rfl
  | @colon word text _ written padded =>
    have plain : ∀ c ∈ text, c ∉ ['}'] ∧ c ≠ '{' := by
      intro c member
      have plain := padded.plain written.plain c member
      simp only [delimiters, List.mem_cons, List.not_mem_nil, or_false, not_or] at plain ⊢
      exact ⟨plain.2.2.1, plain.2.1⟩
    have found : readUntil ['}'] opening (cursor.past [':'] (text ++ '}' :: rest)) =
        .ok (text, (cursor.past [':'] (text ++ '}' :: rest)).past text ('}' :: rest)) :=
      readUntil_ok_iff.mpr ⟨plain, '}', List.mem_singleton_self _, rest, rfl, rfl⟩
    have known : Quantifier.read? (Text.trim text) = some quantifier := by
      rw [written.solid.trim_eq padded, written.read]
    unfold readQuantifier
    rw [here]
    simp only [List.cons_append]
    rw [found]
    dsimp only [bind, Except.bind]
    rw [known]
    exact ⟨_, rfl, rfl⟩

end Pattern

/-! ### Placeholders -/

/-- An item of a pattern without its place in the pattern. -/
inductive Part where
  | literal (text : List Char)
  | slot (name : String) (target : Target) (quantifier : Quantifier)
  deriving DecidableEq, Repr

def Item.part : Item → Part
  | .literal text _ => .literal text.toList
  | .placeholder slot => .slot slot.name slot.target slot.quantifier

/-- The written forms of a placeholder. -/
inductive SlotText : List Char → Part → Prop where
  | intro {name : String} {padded type count : List Char} {target : Target}
      {quantifier : Quantifier} (identifier : Identifier name.toList)
      (named : Padded name.toList padded) (targeted : TargetText type target)
      (counted : CountText count quantifier) :
      SlotText ('{' :: padded ++ ':' :: type ++ count ++ ['}']) (.slot name target quantifier)

/-- Behind a target there is a colon or the closing brace. -/
theorem CountText.exists_first {text : List Char} {quantifier : Quantifier}
    (written : CountText text quantifier) (rest : List Char) :
    ∃ c ∈ [':', '}'], ∃ more, text ++ '}' :: rest = c :: more := by
  cases written with
  | nil => exact ⟨'}', by simp, rest, rfl⟩
  | @colon _ text => exact ⟨':', by simp, text ++ '}' :: rest, rfl⟩

namespace Pattern

variable {opening stop : Cursor}

theorem readPlaceholder_sound {slot : Placeholder} {inside : List Char}
    (read : readPlaceholder opening = .ok (slot, stop)) (opened : opening.rest = '{' :: inside) :
    ∃ text, SlotText text (Item.placeholder slot).part ∧ opening.rest = text ++ stop.rest := by
  unfold readPlaceholder at read
  rw [opened] at read
  obtain ⟨⟨padded, next⟩, found, read⟩ := exists_of_bind_ok read
  obtain ⟨-, c, stops, rest, here, rfl⟩ := readUntil_ok_iff.mp found
  dsimp only at read
  split at read
  next => cases read
  split at read
  next => cases read
  next named =>
    split at read
    next => cases read
    next goes =>
      -- Each scanner has taken its own text off what was left.
      obtain ⟨⟨target, behind⟩, targetRead, read⟩ := exists_of_bind_ok read
      obtain ⟨⟨quantifier, closed⟩, countRead, same⟩ := exists_of_bind_ok read
      obtain ⟨rfl, rfl⟩ := Prod.mk.inj (Except.ok.inj same)
      obtain ⟨type, targeted, front⟩ := readTarget_sound targetRead
      obtain ⟨count, counted, back⟩ := readQuantifier_sound countRead
      -- A brace there would have closed the placeholder too early.
      obtain rfl : c = ':' := by
        rcases List.mem_cons.mp stops with colon | brace
        · exact colon
        · exact absurd (congrArg some (List.mem_singleton.mp brace)) goes
      refine ⟨'{' :: padded ++ ':' :: type ++ count ++ ['}'], .intro ?_ ?_ targeted counted, ?_⟩
      · rw [String.toList_ofList]
        exact isIdentifier_iff.mp (by simpa using named)
      · rw [String.toList_ofList]
        exact padded_trim padded
      · change inside = padded ++ ':' :: rest at here
        change rest = type ++ behind.rest at front
        change behind.rest = count ++ '}' :: closed.rest at back
        simp [opened, here, front, back]

theorem readPlaceholder_complete {text rest : List Char} {part : Part}
    (written : SlotText text part) (here : opening.rest = text ++ rest) :
    ∃ slot stop, readPlaceholder opening = .ok (slot, stop) ∧
      (Item.placeholder slot).part = part ∧ stop.rest = rest := by
  obtain @⟨name, padded, type, count, target, quantifier, identifier, named, targeted, counted⟩ :=
    written
  obtain ⟨c, stops, more, behind⟩ := counted.exists_first rest
  have opened : opening.rest = '{' :: (padded ++ ':' :: (type ++ c :: more)) := by
    simp [here, ← behind]
  have trimmed := identifier.solid.trim_eq named
  -- The cursors behind the brace, in front of the colon, and behind it.
  let start := opening.past ['{'] (padded ++ ':' :: (type ++ c :: more))
  let colon := start.past padded (':' :: (type ++ c :: more))
  let front := colon.past [':'] (type ++ c :: more)
  have found : readUntil [':', '}'] opening start = .ok (padded, colon) :=
    readUntil_padded identifier named (by simp) rfl
  have passed : colon.past (colon.rest.take 1) (colon.rest.drop 1) = front := rfl
  have targetRead : readTarget name.toList opening front = .ok (target, front.past type (c :: more)) :=
    readTarget_complete targeted stops rfl
  have counting : ∃ stop, readQuantifier opening front (front.past type (c :: more)) =
      .ok (quantifier, stop) ∧ stop.rest = rest := readQuantifier_complete counted behind.symm
  obtain ⟨stop, countRead, left⟩ := counting
  refine ⟨⟨name, target, quantifier, opening.spanTo stop⟩, stop, ?_, rfl, left⟩
  unfold readPlaceholder
  simp only [opened, List.drop_succ_cons, List.drop_zero]
  change (readUntil [':', '}'] opening start >>= _) = _
  rw [found]
  dsimp only [bind, Except.bind]
  rw [trimmed, if_neg identifier.1, if_neg (by simp [isIdentifier_iff.mpr identifier]),
    if_neg (by simp [colon, Cursor.past]), passed, targetRead]
  dsimp only
  rw [countRead, String.ofList_toList]
  rfl

end Pattern
end SentenceGrammar
