import Stencil.Cache.Key
import Stencil.Cache.Store
import Stencil.Engine.Composition

/-!
# Rendering

A render gives the text of a template in a context. What a render gave once is kept in a store,
under a key made of the template's name and the context; a render whose key is known gives what
is kept. A failing render keeps nothing.

Output is returned, or appended to a sink; then nothing is returned.
-/

namespace Stencil

/-- Something that finished output is appended to. -/
structure Sink (τ : Type) where
  /-- Appends output. -/
  append : τ → Text → τ

namespace Sink

/-- A sink that keeps its output. -/
def text : Sink Text := ⟨fun output content => output ++ content⟩

/-- A sink that loses its output. -/
def closed {τ : Type} : Sink τ := ⟨fun output _ => output⟩

end Sink

/-- What becomes of finished output. -/
inductive Output (τ : Type) where
  /-- It is returned. -/
  | returned
  /-- It is appended to a sink. -/
  | appended (sink : Sink τ)

/-- Delivers finished output: what is returned, and what the sink then holds. -/
def Output.deliver {τ : Type} (output : Output τ) (held : τ) (content : Text) : Option Text × τ :=
  match output with
  | .returned => (some content, held)
  | .appended sink => (none, sink.append held content)

/-- What a render gives. -/
structure Rendered (σ : Type) where
  /-- The output, or why there is none. -/
  outcome : Except Error Text
  /-- The names of the templates asked for. -/
  requests : List String
  /-- The state of the store afterwards. -/
  store : σ

/-- What a render gives whose output is delivered. -/
structure Delivered (σ τ : Type) where
  /-- The output if it is returned, or why there is none. -/
  outcome : Except Error (Option Text)
  /-- The names of the templates asked for. -/
  requests : List String
  /-- The state of the store afterwards. -/
  store : σ
  /-- What the sink holds afterwards. -/
  held : τ

/-- A delivery by what is returned: no text if nothing is. -/
def Delivered.rendered {σ τ : Type} (delivered : Delivered σ τ) : Rendered σ :=
  ⟨delivered.outcome.map (·.getD []), delivered.requests, delivered.store⟩

namespace Engine

variable {σ τ : Type}

/-- The key of a render, if its output is cached and the context has one. -/
def key? (e : Engine) (name : String) (ctx : Context) : Option String :=
  if e.cacheEnabled then (Cache.key? name ctx).toOption else none

/-- Renders a template and delivers the output. -/
def renderTo (e : Engine) (disk : Disk) (store : CacheStore σ) (output : Output τ)
    (s : σ) (held : τ) (name : String) (ctx : Context) : Delivered σ τ :=
  if name.toList.all isBlank then ⟨.error .emptyTemplateName, [], s, held⟩
  else
    let ctx := e.effectiveContext ctx
    let key? := e.key? name ctx
    match key?.bind (store.lookup? s) with
    | some hit =>
      let (returned, held) := output.deliver held hit
      ⟨.ok returned, [], s, held⟩
    | none =>
      match e.renderFresh disk name ctx with
      | (.error err, requests) => ⟨.error err, requests, s, held⟩
      | (.ok content, requests) =>
        let s := match key? with
          | some key => store.keep s key content
          | none => s
        let (returned, held) := output.deliver held content
        ⟨.ok returned, requests, s, held⟩

/-- Renders a template and returns the output. -/
def render (e : Engine) (disk : Disk) (store : CacheStore σ) (s : σ) (name : String)
    (ctx : Context) : Rendered σ :=
  (e.renderTo disk store (.returned : Output Unit) s () name ctx).rendered

/-- Renders a template and appends the output to a sink. Nothing is returned. -/
def emit (e : Engine) (disk : Disk) (store : CacheStore σ) (sink : Sink τ) (s : σ) (held : τ)
    (name : String) (ctx : Context) : Rendered σ × τ :=
  let delivered := e.renderTo disk store (.appended sink) s held name ctx
  (delivered.rendered, delivered.held)

/-- A render whose output is returned, case by case. -/
theorem render_eq (e : Engine) (disk : Disk) (store : CacheStore σ) (s : σ) (name : String)
    (ctx : Context) :
    e.render disk store s name ctx =
      if name.toList.all isBlank then ⟨.error .emptyTemplateName, [], s⟩
      else
        let ctx := e.effectiveContext ctx
        match e.key? name ctx with
        | none =>
          let (outcome, requests) := e.renderFresh disk name ctx
          ⟨outcome, requests, s⟩
        | some key =>
          match store.lookup? s key with
          | some content => ⟨.ok content, [], s⟩
          | none =>
            match e.renderFresh disk name ctx with
            | (.ok content, requests) => ⟨.ok content, requests, store.keep s key content⟩
            | (.error err, requests) => ⟨.error err, requests, s⟩ := by
  rw [render, renderTo]
  split
  · rfl
  · dsimp only
    cases e.key? name (e.effectiveContext ctx) with
    | none => rcases e.renderFresh disk name (e.effectiveContext ctx) with ⟨_ | _, _⟩ <;> rfl
    | some key =>
      dsimp only [Option.bind_some]
      cases store.lookup? s key with
      | some hit => rfl
      | none => rcases e.renderFresh disk name (e.effectiveContext ctx) with ⟨_ | _, _⟩ <;> rfl

end Engine

end Stencil
