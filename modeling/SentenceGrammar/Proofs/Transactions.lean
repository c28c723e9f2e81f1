import SentenceGrammar.Parser
import SentenceGrammar.Proofs.RegistryContents

/-!
# Passes as transactions

Before it looks at a text, a pass lets the listeners work on a copy of the grammar, one after the
other. If all of them succeed, the parser goes on with the copy, whatever becomes of the text. If
one of them fails, the copy is dropped with everything that was done to it, and the text is not
looked at. So, over any events in the life of a parser, its grammar is made by the passes and the
calls that succeeded, and by nothing else.
-/
namespace SentenceGrammar.Parser

variable {ε κ σ : Type}

/-! ### Work that may fail -/

section

variable {δ τ α β : Type} {work : ExceptT δ (StateM τ) α} {next : α → ExceptT δ (StateM τ) β}
  {before after : τ}

theorem run_bind_ok {a : α} (succeeds : work.run.run before = (.ok a, after)) :
    (work >>= next).run.run before = (next a).run.run after := by
  change (work.run >>= ExceptT.bindCont next).run before = _
  rw [StateT.run_bind, succeeds]
  rfl

theorem run_bind_error {error : δ} (fails : work.run.run before = (.error error, after)) :
    (work >>= next).run.run before = (.error error, after) := by
  change (work.run >>= ExceptT.bindCont next).run before = _
  rw [StateT.run_bind, fails]
  rfl

theorem run_get (before : τ) : (get : ExceptT δ (StateM τ) τ).run.run before = (.ok before, before) :=
  rfl

theorem run_map (f : α → β) (before : τ) : (do return f (← work)).run.run before =
    ((work.run.run before).1.map f, (work.run.run before).2) := by
  cases outcome : work.run.run before with
  | mk result after =>
    cases result with
    | ok a => rw [run_bind_ok outcome]; rfl
    | error error => rw [run_bind_error outcome]; rfl

theorem run_return (work : StateM τ α) (f : α → β) (before : τ) :
    (do return f (← work) : StateM τ β).run before =
      (f (work.run before).1, (work.run before).2) := rfl

end

/-! ### Listeners -/

/-- The listeners all succeed, each on the grammar and the surroundings that the one before leaves. -/
inductive Listened : List (Listener ε κ σ) → Registry ε κ × σ → Registry ε κ × σ → Prop where
  | nil (state : Registry ε κ × σ) : Listened [] state state
  | cons {listener : Listener ε κ σ} {rest : List (Listener ε κ σ)}
      {before between after : Registry ε κ × σ}
      (succeeds : listener.run.run before = (.ok (), between))
      (others : Listened rest between after) : Listened (listener :: rest) before after

/-- The listeners in front of an index succeed, and the one at the index fails on what they leave.
No other one follows, so in the end there is what this one leaves. -/
inductive Interrupted : List (Listener ε κ σ) → Registry ε κ × σ → Nat → GrammarError →
    Registry ε κ × σ → Prop where
  | here {listener : Listener ε κ σ} {rest : List (Listener ε κ σ)}
      {before left : Registry ε κ × σ} {cause : GrammarError}
      (fails : listener.run.run before = (.error cause, left)) :
      Interrupted (listener :: rest) before 0 cause left
  | later {listener : Listener ε κ σ} {rest : List (Listener ε κ σ)}
      {before between left : Registry ε κ × σ} {index : Nat} {cause : GrammarError}
      (succeeds : listener.run.run before = (.ok (), between))
      (others : Interrupted rest between index cause left) :
      Interrupted (listener :: rest) before (index + 1) cause left

section

variable {listener : Listener ε κ σ} {rest : List (Listener ε κ σ)}
  {before between left : Registry ε κ × σ}

theorem runListeners_succeeds (succeeds : listener.run.run before = (.ok (), between))
    (index : Nat) : (runListeners index (listener :: rest)).run.run before =
      (runListeners (index + 1) rest).run.run between := by
  -- Adapting an error leaves a success and the state as they are.
  have adapted : (listener.adapt (ParseError.listenerFailed index)).run.run before =
      (.ok (), between) := by
    change ((listener.run.run before).1.mapError _, (listener.run.run before).2) = _
    rw [succeeds]
    rfl
  rw [runListeners, run_bind_ok adapted]

theorem runListeners_fails {cause : GrammarError}
    (fails : listener.run.run before = (.error cause, left)) (index : Nat) :
    (runListeners index (listener :: rest)).run.run before =
      (.error (.listenerFailed index cause), left) := by
  have adapted : (listener.adapt (ParseError.listenerFailed index)).run.run before =
      (.error (.listenerFailed index cause), left) := by
    change ((listener.run.run before).1.mapError _, (listener.run.run before).2) = _
    rw [fails]
    rfl
  rw [runListeners, run_bind_error adapted]

end

theorem Listened.run {listeners : List (Listener ε κ σ)} {before after : Registry ε κ × σ}
    (listened : Listened listeners before after) (index : Nat) :
    (runListeners index listeners).run.run before = (.ok (), after) := by
  induction listened generalizing index with
  | nil state => rfl
  | cons succeeds _ ih => rw [runListeners_succeeds succeeds, ih]

theorem Interrupted.run {listeners : List (Listener ε κ σ)} {before left : Registry ε κ × σ}
    {index : Nat} {cause : GrammarError} (interrupted : Interrupted listeners before index cause left)
    (first : Nat) : (runListeners first listeners).run.run before =
      (.error (.listenerFailed (first + index) cause), left) := by
  induction interrupted generalizing first with
  | here fails => rw [runListeners_fails fails, Nat.add_zero]
  | later succeeds _ ih =>
    rw [runListeners_succeeds succeeds, ih, Nat.add_right_comm, Nat.add_assoc]

/-- Listeners are deterministic: they all succeed, or one of them is the first to fail. -/
theorem listened_or_interrupted (listeners : List (Listener ε κ σ)) (before : Registry ε κ × σ) :
    (∃ after, Listened listeners before after) ∨
      ∃ index cause left, Interrupted listeners before index cause left := by
  induction listeners generalizing before with
  | nil => exact .inl ⟨before, .nil before⟩
  | cons listener rest ih =>
    cases outcome : listener.run.run before with
    | mk result between =>
      cases result with
      -- The first failure ends the round, so what the rest would do is not asked.
      | error cause => exact .inr ⟨0, cause, between, .here outcome⟩
      | ok _ =>
        rcases ih between with ⟨after, others⟩ | ⟨index, cause, left, others⟩
        · exact .inl ⟨after, .cons outcome others⟩
        · exact .inr ⟨index + 1, cause, left, .later outcome others⟩

/-! ### Requests -/

/-- What a parser is asked to do with a text. -/
inductive Request where
  | parse (text : String)
  | parseUnfinished (text : String) (cursor : Nat)
  | autocomplete (text : String) (cursor : Nat)
  | checkCompletion (text : String) (cursor : Nat)

inductive Answer (ε κ : Type) where
  | tree (root : Node ε κ)
  | unfinished (roots : List (Node ε κ))
  | suggestions (found : List Suggestion)
  | status (status : CompletionStatus)

/-- The pass that a parser makes for a request. -/
def Request.serve (meaning : Meaning ε κ σ) : Request → Pass ε κ σ (Answer ε κ)
  | .parse text => return .tree (← Parser.parse text)
  | .parseUnfinished text cursor => return .unfinished (← Parser.parseUnfinished text cursor)
  | .autocomplete text cursor => return .suggestions (← Parser.autocomplete meaning text cursor)
  | .checkCompletion text cursor => return .status (← Parser.checkCompletion meaning text cursor)

/-- What a grammar suggests for the text before a cursor, or why it suggests nothing. -/
def offered (meaning : Meaning ε κ σ) (registry : Registry ε κ) (config : Config) (checking : Bool)
    (text : String) (cursor : Nat) : StateM σ (Except NoMatch Suggestions) := do
  match Matching.unfinished registry config (textBefore text cursor) with
  | .error failure => return .error failure
  | .ok roots =>
    return .ok (← Completing.collect meaning.ask registry config checking [] roots)

/-- What a grammar says to a request. The surroundings matter to completers only. -/
def Request.answer (meaning : Meaning ε κ σ) (registry : Registry ε κ) (config : Config) :
    Request → StateM σ (Except NoMatch (Answer ε κ))
  | .parse text => return (Matching.parse registry config text).map .tree
  | .parseUnfinished text cursor =>
    return (Matching.unfinished registry config (textBefore text cursor)).map .unfinished
  | .autocomplete text cursor =>
    return (← offered meaning registry config false text cursor).map fun found =>
      .suggestions found.toList
  | .checkCompletion text cursor =>
    return (← offered meaning registry config true text cursor).map fun found =>
      .status found.status

theorem begin_listened {parser : Parser ε κ σ} {surroundings left : σ} {registry : Registry ε κ}
    (listened : Listened parser.listeners (parser.registry, surroundings) (registry, left)) :
    begin.run.run (parser, surroundings) = (.ok (), ({ parser with registry }, left)) := by
  rw [begin, run_bind_ok (run_get _)]
  dsimp only
  rw [listened.run 0]
  rfl

theorem begin_interrupted {parser : Parser ε κ σ} {surroundings left : σ} {staged : Registry ε κ}
    {index : Nat} {cause : GrammarError}
    (interrupted : Interrupted parser.listeners (parser.registry, surroundings) index cause
      (staged, left)) :
    begin.run.run (parser, surroundings) = (.error (.listenerFailed index cause), (parser, left)) := by
  rw [begin, run_bind_ok (run_get _)]
  dsimp only
  rw [interrupted.run 0, Nat.zero_add]
  rfl

section

variable {parser : Parser ε κ σ} {surroundings left : σ} {registry : Registry ε κ}

theorem parse_listened
    (listened : Listened parser.listeners (parser.registry, surroundings) (registry, left))
    (text : String) : (Parser.parse text).run.run (parser, surroundings) =
      ((Matching.parse registry parser.config text).mapError .noMatch,
        ({ parser with registry }, left)) := by
  rw [Parser.parse, run_bind_ok (begin_listened listened), run_bind_ok (run_get _)]
  dsimp only
  cases Matching.parse registry parser.config text <;> rfl

theorem parseUnfinished_listened
    (listened : Listened parser.listeners (parser.registry, surroundings) (registry, left))
    (text : String) (cursor : Nat) :
    (Parser.parseUnfinished text cursor).run.run (parser, surroundings) =
      ((Matching.unfinished registry parser.config (textBefore text cursor)).mapError .noMatch,
        ({ parser with registry }, left)) := by
  rw [Parser.parseUnfinished, run_bind_ok (begin_listened listened), run_bind_ok (run_get _)]
  dsimp only
  cases Matching.unfinished registry parser.config (textBefore text cursor) <;> rfl

theorem suggestions_listened
    (listened : Listened parser.listeners (parser.registry, surroundings) (registry, left))
    (meaning : Meaning ε κ σ) (checking : Bool) (text : String) (cursor : Nat) :
    (Parser.suggestions meaning checking text cursor).run.run (parser, surroundings) =
      let (found, last) := (offered meaning registry parser.config checking text cursor).run left
      (found.mapError .noMatch, ({ parser with registry }, last)) := by
  -- The completers are asked only if there are trees, and about the grammar that was kept.
  have trees := parseUnfinished_listened listened text cursor
  unfold Parser.suggestions offered
  cases outcome : Matching.unfinished registry parser.config (textBefore text cursor) with
  | error failure =>
    rw [outcome] at trees
    exact run_bind_error trees
  | ok roots =>
    rw [outcome] at trees
    exact (run_bind_ok trees).trans (run_bind_ok (run_get _))

/-- If all listeners succeed, the parser goes on with what they made of the grammar, and this is
what answers the request. -/
theorem Request.serve_listened
    (listened : Listened parser.listeners (parser.registry, surroundings) (registry, left))
    (meaning : Meaning ε κ σ) (request : Request) :
    (request.serve meaning).run.run (parser, surroundings) =
      let (answer, last) := (request.answer meaning registry parser.config).run left
      (answer.mapError .noMatch, ({ parser with registry }, last)) := by
  cases request with
  | parse text =>
    refine (run_map Answer.tree (parser, surroundings)).trans ?_
    rw [parse_listened listened text]
    change _ = (((Matching.parse registry parser.config text).map Answer.tree).mapError _, _)
    cases Matching.parse registry parser.config text <;> rfl
  | parseUnfinished text cursor =>
    refine (run_map Answer.unfinished (parser, surroundings)).trans ?_
    rw [parseUnfinished_listened listened text cursor]
    change _ = (((Matching.unfinished registry parser.config (textBefore text cursor)).map
      Answer.unfinished).mapError _, _)
    cases Matching.unfinished registry parser.config (textBefore text cursor) <;> rfl
  | autocomplete text cursor =>
    refine (run_map Answer.suggestions (parser, surroundings)).trans ?_
    rw [Parser.autocomplete, run_map, suggestions_listened listened meaning false text cursor]
    simp only [answer, run_return]
    generalize (offered meaning registry parser.config false text cursor).run left = outcome
    obtain ⟨found | found, last⟩ := outcome <;> rfl
  | checkCompletion text cursor =>
    refine (run_map Answer.status (parser, surroundings)).trans ?_
    rw [Parser.checkCompletion, run_map, suggestions_listened listened meaning true text cursor]
    simp only [answer, run_return]
    generalize (offered meaning registry parser.config true text cursor).run left = outcome
    obtain ⟨found | found, last⟩ := outcome <;> rfl

/-- If a listener fails, nothing is left of the pass but what the listeners did to the
surroundings. -/
theorem Request.serve_interrupted {index : Nat} {cause : GrammarError}
    (interrupted : Interrupted parser.listeners (parser.registry, surroundings) index cause
      (registry, left)) (meaning : Meaning ε κ σ) (request : Request) :
    (request.serve meaning).run.run (parser, surroundings) =
      (.error (.listenerFailed index cause), (parser, left)) := by
  have begun := begin_interrupted interrupted
  cases request with
  | parse text => rw [serve, run_map, Parser.parse, run_bind_error begun]; rfl
  | parseUnfinished text cursor =>
    rw [serve, run_map, Parser.parseUnfinished, run_bind_error begun]; rfl
  | autocomplete text cursor =>
    rw [serve, run_map, Parser.autocomplete, run_map, Parser.suggestions, Parser.parseUnfinished,
      run_bind_error (run_bind_error begun)]
    rfl
  | checkCompletion text cursor =>
    rw [serve, run_map, Parser.checkCompletion, run_map, Parser.suggestions,
      Parser.parseUnfinished, run_bind_error (run_bind_error begun)]
    rfl

end

/-- A pass is a transaction on the grammar. -/
structure Transactional (meaning : Meaning ε κ σ) (request : Request) (parser : Parser ε κ σ)
    (surroundings : σ) : Prop where
  /-- What the listeners make of the grammar, if all succeed, answers the request and is kept. -/
  committed : ∀ registry left,
    Listened parser.listeners (parser.registry, surroundings) (registry, left) →
      (request.serve meaning).run.run (parser, surroundings) =
        let (answer, last) := (request.answer meaning registry parser.config).run left
        (answer.mapError .noMatch, ({ parser with registry }, last))
  /-- If a listener fails, this is the answer, and the parser is what it was. -/
  interrupted : ∀ index cause staged left,
    Interrupted parser.listeners (parser.registry, surroundings) index cause (staged, left) →
      (request.serve meaning).run.run (parser, surroundings) =
        (.error (.listenerFailed index cause), (parser, left))
  decided : (∃ after, Listened parser.listeners (parser.registry, surroundings) after) ∨
    ∃ index cause left,
      Interrupted parser.listeners (parser.registry, surroundings) index cause left

theorem Request.serve_transactional (meaning : Meaning ε κ σ) (request : Request)
    (parser : Parser ε κ σ) (surroundings : σ) :
    Transactional meaning request parser surroundings where
  committed _ _ listened := request.serve_listened listened meaning
  interrupted _ _ _ _ interrupted := request.serve_interrupted interrupted meaning
  decided := listened_or_interrupted ..

/-! ### Events -/

/-- Something that happens to a parser and its surroundings. -/
inductive Event (ε κ σ : Type) where
  | pass (request : Request)
  /-- The grammar is to be changed. -/
  | call (call : Registry.Call ε κ)
  /-- A listener is added. -/
  | listen (listener : Listener ε κ σ)
  /-- The surroundings change on their own. -/
  | elsewhere (change : σ → σ)

inductive Reply (ε κ : Type) where
  | answer (result : Except ParseError (Answer ε κ))
  | outcome (result : Except GrammarError Unit)
  | nothing

def Event.happen (meaning : Meaning ε κ σ) :
    Event ε κ σ → StateM (Parser ε κ σ × σ) (Reply ε κ)
  | pass request => return .answer (← (request.serve meaning).run)
  | call asked => do
    let (parser, surroundings) ← get
    let (result, registry) := asked.perform.run parser.registry
    set ({ parser with registry }, surroundings)
    return .outcome result
  | listen listener => do
    modify fun (parser, surroundings) =>
      ({ parser with listeners := parser.listeners ++ [listener] }, surroundings)
    return .nothing
  | elsewhere change => do
    modify fun (parser, surroundings) => (parser, change surroundings)
    return .nothing

/-- An event that happened, with the listeners and the surroundings that it met. -/
structure Record (ε κ σ : Type) where
  event : Event ε κ σ
  listeners : List (Listener ε κ σ)
  surroundings : σ
  reply : Reply ε κ

/-- Let events happen one after the other. -/
def history (meaning : Meaning ε κ σ) :
    List (Event ε κ σ) → StateM (Parser ε κ σ × σ) (List (Record ε κ σ))
  | [] => return []
  | event :: rest => do
    let (parser, surroundings) ← get
    let reply ← event.happen meaning
    return ⟨event, parser.listeners, surroundings, reply⟩ :: (← history meaning rest)

namespace Record

/-- Whether it was a pass or a call that succeeded. A pass does, even if the text is no script,
unless a listener fails. -/
def commits (record : Record ε κ σ) : Bool :=
  match record.reply with
  | .answer (.ok _) | .answer (.error (.noMatch _)) | .outcome (.ok ()) => true
  | .answer (.error (.listenerFailed ..)) | .outcome (.error _) | .nothing => false

/-- What a pass makes of a grammar by its listeners, and a call by itself. -/
inductive Makes : Record ε κ σ → Registry ε κ → Registry ε κ → Prop where
  | pass {request : Request} {listeners : List (Listener ε κ σ)} {surroundings left : σ}
      {reply : Reply ε κ} {before after : Registry ε κ}
      (listened : Listened listeners (before, surroundings) (after, left)) :
      Makes ⟨.pass request, listeners, surroundings, reply⟩ before after
  | call {call : Registry.Call ε κ} {listeners : List (Listener ε κ σ)} {surroundings : σ}
      {reply : Reply ε κ} {before after : Registry ε κ} (applied : call.apply before = .ok after) :
      Makes ⟨.call call, listeners, surroundings, reply⟩ before after

/-- One record after the other makes the last grammar out of the first one. -/
inductive Composed : List (Record ε κ σ) → Registry ε κ → Registry ε κ → Prop where
  | nil (registry : Registry ε κ) : Composed [] registry registry
  | cons {record : Record ε κ σ} {rest : List (Record ε κ σ)}
      {before between after : Registry ε κ} (makes : record.Makes before between)
      (others : Composed rest between after) : Composed (record :: rest) before after

end Record

theorem Event.pass_happens (meaning : Meaning ε κ σ) (request : Request)
    (before : Parser ε κ σ × σ) : ((pass request).happen meaning).run before =
      (.answer ((request.serve meaning).run.run before).1,
        ((request.serve meaning).run.run before).2) := run_return ..

theorem Event.call_happens (meaning : Meaning ε κ σ) (asked : Registry.Call ε κ)
    (parser : Parser ε κ σ) (surroundings : σ) :
    ((call asked).happen meaning).run (parser, surroundings) =
      (.outcome (asked.perform.run parser.registry).1,
        ({ parser with registry := (asked.perform.run parser.registry).2 }, surroundings)) := rfl

/-- An event makes the next grammar if it commits, and otherwise leaves the grammar as it is. -/
theorem Event.commits_or_leaves (meaning : Meaning ε κ σ) (event : Event ε κ σ)
    (parser : Parser ε κ σ) (surroundings : σ) :
    let (reply, after) := (event.happen meaning).run (parser, surroundings)
    let record : Record ε κ σ := ⟨event, parser.listeners, surroundings, reply⟩
    (record.commits = true ∧ record.Makes parser.registry after.1.registry) ∨
      (record.commits = false ∧ after.1.registry = parser.registry) := by
  cases event with
  | pass request =>
    rw [pass_happens]
    rcases listened_or_interrupted parser.listeners (parser.registry, surroundings) with
      ⟨⟨registry, left⟩, listened⟩ | ⟨index, cause, ⟨staged, left⟩, interrupted⟩
    · -- Whether there is an answer or the text does not match, the listeners have done their work.
      rw [request.serve_listened listened]
      generalize (request.answer meaning registry parser.config).run left = answered
      obtain ⟨answer | failure, last⟩ := answered
      · exact .inl ⟨rfl, .pass listened⟩
      · exact .inl ⟨rfl, .pass listened⟩
    · rw [request.serve_interrupted interrupted]
      exact .inr ⟨rfl, rfl⟩
  | call asked =>
    rw [call_happens, asked.perform_run]
    cases applied : asked.apply parser.registry with
    | ok next => exact .inl ⟨rfl, .call applied⟩
    | error error => exact .inr ⟨rfl, rfl⟩
  | listen listener => exact .inr ⟨rfl, rfl⟩
  | elsewhere change => exact .inr ⟨rfl, rfl⟩

theorem history_cons (meaning : Meaning ε κ σ) (event : Event ε κ σ)
    (rest : List (Event ε κ σ)) (parser : Parser ε κ σ) (surroundings : σ) :
    (history meaning (event :: rest)).run (parser, surroundings) =
      let (reply, next) := (event.happen meaning).run (parser, surroundings)
      let (records, after) := (history meaning rest).run next
      (⟨event, parser.listeners, surroundings, reply⟩ :: records, after) := rfl

/-- The grammar after any events is composed of what the passes and the calls that succeeded make. -/
theorem history_composed (meaning : Meaning ε κ σ) (events : List (Event ε κ σ))
    (parser : Parser ε κ σ) (surroundings : σ) :
    let (records, after) := (history meaning events).run (parser, surroundings)
    Record.Composed (records.filter Record.commits) parser.registry after.1.registry := by
  induction events generalizing parser surroundings with
  | nil => exact .nil _
  | cons event rest ih =>
    -- The event makes the first grammar of the rest, or leaves it and is left out itself.
    rw [history_cons]
    have step := event.commits_or_leaves meaning parser surroundings
    generalize (event.happen meaning).run (parser, surroundings) = happened at step ⊢
    obtain ⟨reply, next, changed⟩ := happened
    dsimp only at step ⊢
    have others := ih next changed
    generalize (history meaning rest).run (next, changed) = recorded at others ⊢
    obtain ⟨records, after⟩ := recorded
    dsimp only at others ⊢
    rcases step with ⟨commits, makes⟩ | ⟨leaves, same⟩
    · rw [List.filter_cons_of_pos commits]
      exact .cons makes others
    · rw [List.filter_cons_of_neg (by simp [leaves]), ← same]
      exact others

/-- A pass is a transaction: it keeps what its listeners make of the grammar and answers with it if
they all succeed, and otherwise leaves the parser as it was. So the grammar after any events is
composed of what the passes and the calls that succeeded make. -/
theorem passes_transactional (meaning : Meaning ε κ σ) :
    (∀ (request : Request) (parser : Parser ε κ σ) (surroundings : σ),
      Transactional meaning request parser surroundings) ∧
    ∀ (events : List (Event ε κ σ)) (parser : Parser ε κ σ) (surroundings : σ),
      let (records, after) := (history meaning events).run (parser, surroundings)
      Record.Composed (records.filter Record.commits) parser.registry after.1.registry :=
  ⟨Request.serve_transactional meaning, history_composed meaning⟩

/-- A listener that only counts the passes. -/
def counting : Listener Empty Empty Nat := modify fun (registry, passes) => (registry, passes + 1)

/-- A listener that empties the grammar, counts the pass, and fails. -/
def spoiling : GrammarWork Empty Empty Nat Unit := do
  set (({} : Registry Empty Empty), (← get).2 + 1)
  throw (.registry ⟨"units"⟩)

/-- A parser for the one sentence `a`, with a listener that fails between two others. -/
def interruptedParser : Parser Empty Empty Nat where
  registry := { sentences := [⟨none, ⟨"a", [.literal "a" ⟨0, 1⟩]⟩, none, none, false⟩] }
  listeners := [counting, spoiling, counting]

/-- The emptied copy of the grammar is dropped, and the third listener does not count. -/
theorem passes_transactional_spoiling :
    ((Request.parse "a").serve ⟨nofun, nofun⟩).run.run (interruptedParser, 0) =
      (.error (.listenerFailed 1 (.registry ⟨"units"⟩)), (interruptedParser, 2)) :=
  ((passes_transactional ⟨nofun, nofun⟩).1 (.parse "a") interruptedParser 0).interrupted 1 _ {} 2
    (.later rfl (.here rfl))

end SentenceGrammar.Parser
