import Stencil.Engine.Configuration
import Stencil.Proofs.Alphabet.Values

/-!
# Contexts laid over each other

Contexts form an algebra under overlays: laying them over each other can be grouped in any way, the
empty context changes nothing, and neither does a context laid over itself. Escaping goes through.
So it does not matter how the defaults of an engine came about. A render works with everything that
was mentioned to the engine and in the call: each key once, where it was mentioned first, and with
the value that was mentioned last.
-/

namespace Stencil

/-- Escaping overlays is laying escaped contexts over each other. -/
theorem Context.escaped_merge (lower upper : Context) :
    Context.escaped (lower.merge upper) =
      Dict.merge (Context.escaped lower) (Context.escaped upper) := by
  simp only [Context.escaped, Value.escapedFields_eq]
  exact (Dict.merge_map lower upper Value.escaped).symm

/-- The values that a change lays over the defaults, in order. -/
def Change.mentioned : Change → List (String × Value)
  | .data values => values
  | .assign key value => [(key, value)]
  | .delimiters _ _ | .filter _ _ | .plugin _ _ | .autoEscape _ | .clearUnresolved _ | .cache _ =>
      []

namespace Engine

variable {e : Engine}

/-- A value as templates see it. -/
def shown (e : Engine) (v : Value) : Value := if e.autoEscape then v.escaped else v

/-- The engine after some changes, one after another. -/
def configuredAll (e : Engine) (changes : List Change) : Engine := changes.foldl configured e

/-- All that is mentioned to an engine before a render and in its call, in order. -/
def mentioned (e : Engine) (changes : List Change) (call : Context) : List (String × Value) :=
  e.defaults ++ (changes.flatMap Change.mentioned ++ call)

theorem defaults_configured (e : Engine) (change : Change) :
    (e.configured change).defaults = e.defaults.merge change.mentioned := by
  cases change with
  | delimiters left right =>
    simp only [configured, configure]
    cases Delimiters.of? left right <;> rfl
  | filter | plugin | autoEscape | clearUnresolved | data | assign | cache => rfl

theorem defaults_configuredAll (e : Engine) (changes : List Change) :
    (e.configuredAll changes).defaults = e.defaults.merge (changes.flatMap Change.mentioned) := by
  induction changes generalizing e with
  | nil => rfl
  | cons change changes ih =>
    refine (ih (e.configured change)).trans ?_
    rw [defaults_configured, ← Dict.merge_append, List.flatMap_cons]

/-- The defaults and the call are laid over each other, and every value becomes what templates
see. -/
theorem effectiveContext_eq (e : Engine) (call : Context) :
    e.effectiveContext call = (e.defaults.merge call).map fun x => (x.1, e.shown x.2) := by
  simp only [effectiveContext, shown]
  split
  · exact Value.escapedFields_eq _
  · exact (List.map_id _).symm

/-- A render after some changes works with all that is mentioned. -/
theorem effectiveContext_configuredAll (h : e.defaults.KeysUnique) (changes : List Change)
    (call : Context) :
    (e.configuredAll changes).effectiveContext call =
      (Dict.ofEntries (e.mentioned changes call)).map
        fun x => (x.1, (e.configuredAll changes).shown x.2) := by
  have hmentioned : Dict.ofEntries (e.mentioned changes call) =
      (e.configuredAll changes).defaults.merge call := by
    rw [defaults_configuredAll, ← Dict.merge_append, Dict.ofEntries, mentioned, Dict.merge_append]
    exact congrArg (Dict.merge · _) (Dict.ofEntries_eq_self h)
  rw [effectiveContext_eq, hmentioned]

end Engine

/-- **Contexts form an ordered overlay algebra.** Setting and overlaying keep every key unique.
Overlays can be grouped in any way, an empty context on either side changes nothing, a context laid
over itself is the context, and escaping goes through overlays; all this with the keys in order. And
whatever is laid over the defaults of an engine before a render, the render works with each key
once: the keys are in the order of their first mention, and each has the value mentioned last. -/
theorem Context.overlay_algebra {a b c : Context} (ha : a.KeysUnique) (hb : b.KeysUnique) :
    (∀ key value, (a.set key value).KeysUnique) ∧ (a.merge b).KeysUnique ∧
    (a.merge b).merge c = a.merge (b.merge c) ∧
    a.merge [] = a ∧ Dict.merge [] a = a ∧ a.merge a = a ∧
    Context.escaped (a.merge b) = Dict.merge (Context.escaped a) (Context.escaped b) ∧
    ∀ (e : Engine) (changes : List Change) (call : Context), e.defaults.KeysUnique →
      let ctx := (e.configuredAll changes).effectiveContext call
      ctx.KeysUnique ∧ ctx.keys = (Dict.keys (e.mentioned changes call)).eraseDups ∧
        ∀ key, ctx.get? key =
          (Dict.get? (e.mentioned changes call).reverse key).map
          (e.configuredAll changes).shown := by
  refine ⟨ha.set, ha.merge b, Dict.merge_assoc hb a c, rfl, Dict.ofEntries_eq_self ha,
    Dict.merge_eq_self fun _ => ha.get?_of_mem, Context.escaped_merge a b, ?_⟩
  intro e changes call he ctx
  have hctx : ctx = _ := Engine.effectiveContext_configuredAll he changes call
  have hkeys : ctx.keys = (Dict.ofEntries (e.mentioned changes call)).keys := by
    rw [hctx, Dict.keys, Dict.keys, List.map_map]
    rfl
  refine ⟨?_, hkeys.trans (Dict.keys_ofEntries _), fun key => ?_⟩
  · rw [Dict.KeysUnique, hkeys]
    exact Dict.keysUnique_ofEntries _
  · rw [hctx, Dict.get?_map, Dict.get?_ofEntries]

/-- The defaults of a site. -/
def siteDefaults : Context := [("site", .str "Sigil"), ("title", .str "Home")]

/-- The engine of the site. -/
def siteEngine : Engine := { defaults := siteDefaults }

/-- What is changed before a page is rendered. -/
def pageChanges :
    List Change := [.assign "title" (.int 1), .autoEscape true, .data [("size", .int 2)]]

/-- What a page is rendered with. -/
def pageCall : Context := [("user", .null), ("title", .str "<News>")]

theorem Context.overlay_algebra_page :
    siteDefaults.KeysUnique ∧ pageCall.KeysUnique ∧ siteEngine.defaults.KeysUnique ∧
    (siteDefaults.merge pageCall).merge siteDefaults =
      siteDefaults.merge (pageCall.merge siteDefaults) ∧
    ((siteEngine.configuredAll pageChanges).effectiveContext pageCall).keys =
      ["site", "title", "size", "user"] ∧
    ((siteEngine.configuredAll pageChanges).effectiveContext pageCall).get? "title" =
      some (.str "&lt;News&gt;") := by
  have hsite : siteDefaults.KeysUnique := by unfold Dict.KeysUnique; decide
  have hpage : pageCall.KeysUnique := by unfold Dict.KeysUnique; decide
  obtain ⟨-, -, hassoc, -, -, -, -, heffective⟩ :=
    Context.overlay_algebra (c := siteDefaults) hsite hpage
  obtain ⟨-, hkeys, hvalue⟩ := heffective siteEngine pageChanges pageCall hsite
  refine ⟨hsite, hpage, hsite, hassoc, hkeys.trans (by decide), (hvalue "title").trans ?_⟩
  rfl

end Stencil
