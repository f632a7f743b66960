import Stencil.Proofs.Composition.Survey
import Stencil.Proofs.Tag.Unclosed

/-!
# Renders and the graph of names

The sources in memory name each other, and so make a graph. A walk visits what a template includes,
from left to right, and then its base; what it comes to is the first problem on its way: a name that
is being visited already, or one without a source.

Templates that hold text and tags of composition only are rendered exactly if the walk meets no
problem, and otherwise fail with the problem that it meets. A template that is met again on another
way is no problem.
-/

namespace Stencil

open Recognizer Outline

/-! ## Walks -/

/-- What a walk comes to. -/
inductive Verdict where
  /-- No problem. -/
  | fine
  /-- A name that is being visited already, behind the path that leads to it. -/
  | cycle (path : List String)
  /-- A name without a source. -/
  | missing (name : String)

/-- Why composition stops at what a verdict means. -/
def Verdict.stop? : Verdict → Option (Stop Error)
  | .fine => none
  | .cycle path => some (.failed (.cycle path))
  | .missing name => some (.failed (.notFound name))

/-- A walk through the names of a list, one after the other, behind the path that led to them. -/
inductive Walk (references : String → Option (List String)) :
    (path names : List String) → Verdict → Prop where
  /-- There is nothing left to visit. -/
  | done {path : List String} : Walk references path [] .fine
  /-- The next name is on the path. -/
  | again {path rest : List String} {name : String} (mem : name ∈ path) :
    Walk references path (name :: rest) (.cycle (path ++ [name]))
  /-- The next name has no source. -/
  | missing {path rest : List String} {name : String} (fresh : name ∉ path)
    (source : references name = none) : Walk references path (name :: rest) (.missing name)
  /-- There is a problem behind the next name. -/
  | fails {path names rest : List String} {name : String} {v : Verdict} (fresh : name ∉ path)
    (source : references name = some names) (visit : Walk references (path ++ [name]) names v)
    (problem : v ≠ .fine) : Walk references path (name :: rest) v
  /-- There is none, and the walk goes on. -/
  | goesOn {path names rest : List String} {name : String} {v : Verdict} (fresh : name ∉ path)
    (source : references name = some names) (visit : Walk references (path ++ [name]) names .fine)
    (next : Walk references path rest v) : Walk references path (name :: rest) v

namespace Walk

variable {references : String → Option (List String)} {path names : List String} {v v' : Verdict}

/-- A walk comes to one thing only. -/
theorem unique (h : Walk references path names v) (h' : Walk references path names v') :
    v' = v := by
  induction h generalizing v' with
  | done =>
    cases h'
    rfl
  | again mem =>
    cases h' with
    | again _ => rfl
    | missing fresh _ => exact absurd mem fresh
    | fails fresh _ _ _ => exact absurd mem fresh
    | goesOn fresh _ _ _ => exact absurd mem fresh
  | missing fresh source =>
    cases h' with
    | again mem => exact absurd mem fresh
    | missing _ _ => rfl
    | fails _ source' _ _ => exact absurd (source.symm.trans source') (by simp)
    | goesOn _ source' _ _ => exact absurd (source.symm.trans source') (by simp)
  | fails fresh source visit problem ih =>
    cases h' with
    | again mem => exact absurd mem fresh
    | missing _ source' => exact absurd (source'.symm.trans source) (by simp)
    | fails _ source' visit' _ =>
      obtain rfl := Option.some.inj (source.symm.trans source')
      exact ih visit'
    | goesOn _ source' visit' _ =>
      obtain rfl := Option.some.inj (source.symm.trans source')
      exact absurd (ih visit').symm problem
  | goesOn fresh source visit next ih ihnext =>
    cases h' with
    | again mem => exact absurd mem fresh
    | missing _ source' => exact absurd (source'.symm.trans source) (by simp)
    | fails _ source' visit' problem =>
      obtain rfl := Option.some.inj (source.symm.trans source')
      exact absurd (ih visit') problem
    | goesOn _ _ _ next' => exact ihnext next'

/-- Where every template ranks above those it names, and those have sources, there is no problem: a
name may be met on any number of ways. -/
theorem eq_fine (rank : String → Nat)
    (hrank : ∀ name names, references name = some names →
      ∀ n ∈ names, rank n < rank name ∧ references n ≠ none)
    (hpath : ∀ p ∈ path, ∀ n ∈ names, rank n < rank p) (hnames : ∀ n ∈ names, references n ≠ none)
    (h : Walk references path names v) : v = .fine := by
  have hbehind : ∀ {path names rest : List String} {name : String},
      (∀ p ∈ path, ∀ n ∈ name :: rest, rank n < rank p) → references name = some names →
        ∀ p ∈ path ++ [name], ∀ n ∈ names, rank n < rank p := by
    intro path names rest name hpath source p hp n hn
    have hlt := (hrank name names source n hn).1
    rcases List.mem_append.mp hp with hp | hp
    · exact Nat.lt_trans hlt (hpath p hp name (by simp))
    · obtain rfl := List.mem_singleton.mp hp
      exact hlt
  induction h with
  | done => rfl
  | again mem => exact absurd (hpath _ mem _ (by simp)) (Nat.lt_irrefl _)
  | missing fresh source => exact absurd source (hnames _ (by simp))
  | fails fresh source visit problem ih =>
    exact ih (hbehind hpath source) fun n hn => (hrank _ _ source n hn).2
  | goesOn fresh source visit next ih ihnext =>
    exact ihnext (fun p hp n hn => hpath p hp n (by simp [hn])) fun n hn => hnames n (by simp [hn])

end Walk

namespace Engine

variable {e : Engine} {disk : Disk}

/-! ## The survey is a walk -/

/-- The names that the source of a name mentions: those of its include tags, from left to right, and
then that of its base tag. -/
def references (e : Engine) (name : String) : Option (List String) :=
  (e.sources.get? name).map fun source =>
    (Tag.scan e.delimiters.includeTag source).map (·.content) ++
      (Tag.scan e.delimiters.baseTag source).map (·.content)

theorem mem_keys_of_references {name : String} {names : List String}
    (hsource : e.references name = some names) : name ∈ e.sources.keys := by
  obtain ⟨source, hsource, -⟩ := Option.map_eq_some_iff.mp hsource
  exact List.mem_map.mpr ⟨(name, source), Dict.mem_of_get? hsource, rfl⟩

/-- With more fuel than there are sources to visit, a survey comes to what a walk comes to; so it
does not run out of fuel. -/
theorem walk_of_survey {links : String → Except Error (List String)}
    (hlinks : ∀ name, links name =
      match e.references name with
      | none => .error (.notFound name)
      | some names => .ok names)
    {fuel : Nat} {path : List String} (hfuel : Ancestry.remaining e.sources.keys path < fuel)
    (names requests : List String) :
    ∃ v, Walk e.references path names v ∧
      (Answer.visitAll (survey links fuel path) names requests).1 = v.stop? := by
  induction fuel generalizing path names requests with
  | zero => omega
  | succ fuel ih =>
    induction names generalizing requests with
    | nil => exact ⟨.fine, .done, rfl⟩
    | cons name rest ihrest =>
      rw [Answer.visitAll, survey]
      by_cases hname : name ∈ path
      · rw [if_pos hname]
        exact ⟨_, .again hname, rfl⟩
      · rw [if_neg hname, hlinks]
        cases hsource : e.references name with
        | none => exact ⟨_, .missing hname hsource, rfl⟩
        | some names =>
          have hlt := Ancestry.remaining_concat_lt (mem_keys_of_references hsource) hname
          have hless : Ancestry.remaining e.sources.keys (path ++ [name]) < fuel := by omega
          obtain ⟨v, hwalk, hv⟩ := ih hless names (requests ++ [name])
          dsimp only
          rcases hvisit : Answer.visitAll (survey links fuel (path ++ [name])) names
            (requests ++ [name]) with ⟨stop, requests'⟩
          rw [hvisit] at hv
          obtain rfl : stop = v.stop? := hv
          cases v with
          | fine =>
            obtain ⟨v, hrest, hv⟩ := ihrest requests'
            exact ⟨v, .goesOn hname hsource hwalk hrest, hv⟩
          | cycle found => exact ⟨_, .fails hname hsource hwalk (by simp), rfl⟩
          | missing found => exact ⟨_, .fails hname hsource hwalk (by simp), rfl⟩

/-! ## Sources of text and tags of composition -/

end Engine

/-- An outline of text and tags of composition: its block tags balance, and it has one base tag at
most, outside all blocks. -/
structure Outline.Composes (d : Delimiters) (ps : List (Piece Text)) : Prop where
  /-- No tag starts in the text. -/
  plain : ∀ s, .plain s ∈ ps → d.Plain s
  /-- Every tag is one of composition. -/
  tag : ∀ body, .tag body ∈ ps → d.Free body ∧ d.IsComposition body
  /-- Blocks balance, and base tags stand outside. -/
  nested : Nested d 0 ps
  /-- There is one base tag at most. -/
  base : (readings d d.baseTag ps).length ≤ 1

namespace Outline

variable {d : Delimiters} {ps : List (Piece Text)}

theorem Composes.tidy (h : Composes d ps) : Tidy d id ps := by
  intro q hq
  cases q with
  | plain s => exact h.plain s hq
  | tag body => exact (h.tag body hq).1

/-- A tag of composition opens no protected region. -/
theorem not_region_of_composition (hd : d.Apart) {body : Text} (hb : d.Free body)
    (h : d.IsComposition body) : reading d d.regionOpening body = none := by
  refine Delimiters.eq_none_of_leadingWord ["noparse".toList]
    (fun _ ha => by simp [Delimiters.leadingWord_regionOpening hd hb ha]) ?_
  rcases h with ⟨name, h⟩ | ⟨name, h⟩ | ⟨name, h⟩ | h
  · rw [(Delimiters.names_includeTag hd hb h).1]
    decide
  · rcases Delimiters.names_baseTag hd hb h with hn | hn
    · rw [hn.1]
      decide
    · rw [hn.1]
      decide
  · rw [Delimiters.leadingWord_blockOpening hd hb h]
    decide
  · rw [Delimiters.leadingWord_blockClosing hd hb h]
    decide

/-- A source of text and tags of composition has no regions. -/
theorem Composes.sound (hd : d.Apart) (h : Composes d ps) :
    Fragment.Sound d (ps.map .piece) :=
  Fragment.sound_pieces h.plain fun body hbody =>
    have ⟨hb, hc⟩ := h.tag body hbody
    ⟨hb, not_region_of_composition hd hb hc⟩

end Outline

namespace Engine

variable {e : Engine} {disk : Disk}

/-- Every source in memory holds text and tags of composition only. -/
def Composes (e : Engine) : Prop :=
  ∀ name s, e.sources.get? name = some s →
    ∃ ps, s = write e.delimiters id ps ∧ Outline.Composes e.delimiters ps

theorem loadFirst_memory (hloaders : e.loaders = []) (name : String) :
    Loader.loadFirst disk e.allLoaders name =
      match e.sources.get? name with
      | some s => .ok s
      | none => .error (.notFound name) := by
  rw [allLoaders, hloaders, Loader.loadFirst, Loader.load]
  cases e.sources.get? name <;> rfl

theorem get?_of_loadFirst (hloaders : e.loaders = []) {name : String} {s : Text}
    (h : Loader.loadFirst disk e.allLoaders name = .ok s) : e.sources.get? name = some s := by
  rw [loadFirst_memory hloaders] at h
  cases hs : e.sources.get? name with
  | none => rw [hs] at h; exact absurd h (by simp)
  | some s' => rw [hs] at h; rw [Except.ok.inj h]

theorem Composes.composable (hd : e.delimiters.Apart) (hloaders : e.loaders = [])
    (h : e.Composes) (disk : Disk) : e.Composable disk := by
  intro name s hload
  obtain ⟨ps, rfl, hps⟩ := h name s (get?_of_loadFirst hloaders hload)
  refine ⟨ps.map .piece, (Fragment.source_pieces ps).symm, hps.sound hd, ?_, ?_⟩
  · rw [Fragment.outline, Fragment.shelve_pieces]
    exact hps.nested
  · rw [Fragment.outline, Fragment.shelve_pieces]
    exact hps.base

/-- Nothing is put in the place of tags of composition. -/
theorem Composes.not_puts (hd : e.delimiters.Apart) (hloaders : e.loaders = []) (h : e.Composes)
    {ctx : Context} {t : Text} : ¬ e.Puts disk ctx t := by
  rintro ⟨c, body, v, -, hbody, hread, htext⟩
  obtain ⟨name, s, hload, hb, hinfix⟩ := hbody.isInfix
  obtain ⟨ps, rfl, hps⟩ := h name s (get?_of_loadFirst hloaders hload)
  obtain ⟨-, hc⟩ := hps.tag body (mem_of_isInfix hd hps.tidy hb hinfix)
  have hreserved := Delimiters.reserved_of_composition hd hb hc hread
  rw [Substitution.text?, if_pos (by simpa using hreserved)] at htext
  exact absurd htext (by simp)

theorem Composes.links (hd : e.delimiters.Apart) (hloaders : e.loaders = []) (h : e.Composes)
    (disk : Disk) (name : String) :
    e.links disk name =
      match e.references name with
      | none => .error (.notFound name)
      | some names => .ok names := by
  rw [Engine.links, loadFirst_memory hloaders, references]
  cases hs : e.sources.get? name with
  | none => rfl
  | some s =>
    obtain ⟨ps, rfl, hps⟩ := h name s hs
    have hextract := Fragment.extract_source hd (w := id) id
      ProtectedRegions.placeholder (fun _ => rfl) (fun _ => rfl) [] (hps.sound hd)
    rw [Fragment.source_pieces, Fragment.shelve_pieces] at hextract
    simp only [Except.map, namesIn, hextract, Option.map_some]

/-- What a render comes to is what the walk through the names comes to. -/
theorem render_follows_walk {σ : Type} (hd : e.delimiters.Apart) (hcache : e.cacheEnabled = false)
    (hplugins : e.plugins = []) (hloaders : e.loaders = []) (hsources : e.Composes)
    (store : CacheStore σ) (s : σ) {name : String} (hname : name.toList.all isBlank = false)
    (ctx : Context) :
    ∃ v, (∀ v', Walk e.references [] [name] v' ↔ v' = v) ∧
      let outcome := (e.render disk store s name ctx).outcome
      match v with
      | .fine => ∃ t, outcome = .ok t
      | .cycle path => ∃ err, outcome = .error err ∧ err.kind = .composition ∧
        err.detail = "Template cycle detected: " ++ " -> ".intercalate path
      | .missing absent => ∃ err, outcome = .error err ∧ err.kind = .templateNotFound ∧
        err = .notFound absent := by
  obtain ⟨v, hwalk, hv⟩ := walk_of_survey (hsources.links hd hloaders disk)
    (remaining_keys_lt_depthBound hloaders disk) [name] []
  obtain ⟨-, houtcome⟩ := render_follows_survey ctx hd hcache hplugins
    (hsources.composable hd hloaders disk)
    (fun t ht => absurd ht (hsources.not_puts hd hloaders)) store s hname
  rw [Answer.visitAll] at hv
  refine ⟨v, fun v' => ⟨fun h => hwalk.unique h, fun h => h ▸ hwalk⟩, ?_⟩
  have hanswer : (survey (e.links disk) (e.depthBound disk) [] name []).1 = v.stop? := by
    rw [← hv]
    exact congrArg Prod.fst (Answer.proceed_none _).symm
  rw [hanswer] at houtcome
  cases v with
  | fine => exact houtcome
  | cycle path => exact ⟨_, houtcome, rfl, rfl⟩
  | missing absent => exact ⟨_, houtcome, rfl, rfl⟩

/-- An engine with a template that includes another twice and extends a third. -/
def diamond : Engine where
  sources := [("t", "\x7binclude: p\x7d\x7binclude: p\x7d\x7bextends: b\x7d".toList),
    ("p", "a".toList), ("b", "\x7bblock m\x7dc\x7bendblock\x7d".toList)]
  cacheEnabled := false

theorem composes_diamond : diamond.Composes := by
  intro name s hs
  by_cases ht : "t" = name
  · obtain rfl := ht
    obtain rfl : "\x7binclude: p\x7d\x7binclude: p\x7d\x7bextends: b\x7d".toList = s :=
      Option.some.inj hs
    have hinclude : Delimiters.braces.IsComposition "include: p".toList := .inl ⟨"p", by rfl⟩
    have hreads : reading Delimiters.braces Delimiters.braces.baseTag "extends: b".toList =
        some "b" := by rfl
    have hbase : Delimiters.braces.IsComposition "extends: b".toList := .inr (.inl ⟨"b", hreads⟩)
    refine ⟨[.tag "include: p".toList, .tag "include: p".toList, .tag "extends: b".toList],
      rfl, ?_, ?_,
      .other ⟨by decide, by decide⟩ (by decide) (.other ⟨by decide, by decide⟩ (by decide)
        (.base hreads .nil)), by decide⟩
    · simp
    · simp only [List.mem_cons, Piece.tag.injEq, List.not_mem_nil, or_false]
      rintro body (rfl | rfl | rfl)
      · exact ⟨by decide, hinclude⟩
      · exact ⟨by decide, hinclude⟩
      · exact ⟨by decide, hbase⟩
  · by_cases hp : "p" = name
    · obtain rfl := hp
      obtain rfl : "a".toList = s := Option.some.inj hs
      exact ⟨[.plain ['a']], rfl, by simp; decide, by simp, .plain .nil, by decide⟩
    · by_cases hb : "b" = name
      · obtain rfl := hb
        obtain rfl : "\x7bblock m\x7dc\x7bendblock\x7d".toList = s := Option.some.inj hs
        have hreads : reading Delimiters.braces Delimiters.braces.blockOpening "block m".toList =
            some "m" := by rfl
        have hopening : Delimiters.braces.IsComposition "block m".toList :=
          .inr (.inr (.inl ⟨"m", hreads⟩))
        have hclosing : Delimiters.braces.IsComposition "endblock".toList :=
          .inr (.inr (.inr (by rfl)))
        refine ⟨[.tag "block m".toList, .plain ['c'], .tag "endblock".toList], rfl, ?_, ?_,
          .opening hreads (.plain (.closing (by rfl) .nil)), by decide⟩
        · simp
          decide
        · simp only [List.mem_cons, Piece.tag.injEq, List.not_mem_nil, or_false, reduceCtorEq,
            false_or]
          rintro body (rfl | rfl)
          · exact ⟨by decide, hopening⟩
          · exact ⟨by decide, hclosing⟩
      · simp [diamond, Dict.get?, ht, hp, hb] at hs

/-- The template ranks above those that it names, and these name none. -/
theorem references_diamond {name : String} {names : List String}
    (h : diamond.references name = some names) :
    ∀ n ∈ names, (if n = "t" then 1 else 0) < (if name = "t" then 1 else 0) ∧
      diamond.references n ≠ none := by
  have hp : diamond.references "p" = some [] := by rfl
  have hb : diamond.references "b" = some [] := by rfl
  by_cases ht : name = "t"
  · subst ht
    obtain rfl : ["p", "p", "b"] = names := Option.some.inj h
    simp [hp, hb]
  · have hnil : names = [] := by
      by_cases hname : name = "p" ∨ name = "b"
      · rcases hname with rfl | rfl
        · exact (Option.some.inj (hp.symm.trans h)).symm
        · exact (Option.some.inj (hb.symm.trans h)).symm
      · obtain ⟨hnp, hnb⟩ := not_or.mp hname
        simp [references, diamond, Dict.get?, Ne.symm ht, Ne.symm hnp, Ne.symm hnb] at h
    simp [hnil]

/-- A template that is met twice is no problem. -/
theorem render_follows_walk_diamond :
    ∃ t, (diamond.render ⟨[], [], none⟩ .memory [] "t" []).outcome = .ok t := by
  obtain ⟨v, hv, houtcome⟩ := @render_follows_walk diamond ⟨[], [], none⟩ _
    Delimiters.apart_braces rfl rfl rfl composes_diamond .memory [] "t" (by decide) []
  have ht : diamond.references "t" = some ["p", "p", "b"] := by rfl
  obtain rfl : v = .fine :=
    ((hv v).mpr rfl).eq_fine (fun name => if name = "t" then 1 else 0)
      (fun name names h => references_diamond h) (by simp) (by simp [ht])
  exact houtcome

/-- An engine with a template that includes another. -/
def including (d : Delimiters) (source included : Text) : Engine where
  delimiters := d
  sources := [("t", source), ("p", included), ("b", [])]
  cacheEnabled := false

/-- What is put in the place of a tag makes another tag with the text behind it, or changes one. -/
theorem render_misled :
    let doubled := including ⟨['\x7b', '\x7b'], ['\x7d', '\x7d'], by simp, by simp⟩
      "\x7b\x7binclude: p\x7d\x7d\x7bextends: q\x7d\x7d".toList ['\x7b']
    let named := including ⟨['\x7b'], ['x'], by simp, by simp⟩
      "\x7bextends: bx\x7binclude: px".toList ['y', 'x']
    (Walk doubled.references [] ["t"] .fine ∧
        (doubled.render ⟨[], [], none⟩ .memory [] "t" []).outcome = .error (.notFound "q")) ∧
      (Walk named.references [] ["t"] .fine ∧
        (named.render ⟨[], [], none⟩ .memory [] "t" []).outcome = .error (.notFound "bxy")) := by
  intro doubled named
  refine ⟨⟨?_, ?_⟩, ⟨?_, ?_⟩⟩
  · have ht : doubled.references "t" = some ["p"] := by rfl
    have hp : doubled.references "p" = some [] := by rfl
    exact .goesOn (by simp) ht (.goesOn (by decide) hp .done .done) .done
  · have hinclude : Tag.scan doubled.delimiters.includeTag
        "\x7b\x7binclude: p\x7d\x7d\x7bextends: q\x7d\x7d".toList =
          [⟨0, "\x7b\x7binclude: p\x7d\x7d".toList, "p", by decide⟩] := by rfl
    have hbase : Tag.scan doubled.delimiters.baseTag "\x7b\x7bextends: q\x7d\x7d".toList =
        [⟨0, "\x7b\x7bextends: q\x7d\x7d".toList, "q", by decide⟩] := by rfl
    have hprocess : doubled.process [] false ['\x7b'] = ['\x7b'] := by
      rw [process_unclosed rfl (List.isEmpty_iff.mp (by decide +kernel))
        (List.isEmpty_iff.mp (by decide +kernel))]
      decide +kernel
    have hcompose : ∀ fuel, doubled.compose ⟨[], [], none⟩ [] (fuel + 2) [] [] "t" {} =
        doubled.finish ⟨[], [], none⟩ [] (fuel + 1) ["t"] []
          "\x7b\x7bextends: q\x7d\x7d".toList ⟨[], ["t", "p"]⟩ :=
      compose_including (by decide) rfl (by decide +kernel) hinclude rfl (by decide +kernel)
        (List.isEmpty_iff.mp (by decide +kernel)) (List.isEmpty_iff.mp (by decide +kernel))
        (List.isEmpty_iff.mp (by decide +kernel)) hprocess
    have heffective : doubled.effectiveContext [] = [] := rfl
    rw [render_uncached rfl _ _ (by decide), heffective,
      renderFresh_misled hcompose hbase (by decide) rfl]
  · have ht : named.references "t" = some ["p", "b"] := by rfl
    have hp : named.references "p" = some [] := by rfl
    have hb : named.references "b" = some [] := by rfl
    exact .goesOn (by simp) ht (.goesOn (by decide) hp .done (.goesOn (by decide) hb .done .done))
      .done
  · have hinclude : Tag.scan named.delimiters.includeTag "\x7bextends: bx\x7binclude: px".toList =
        [⟨12, "\x7binclude: px".toList, "p", by decide⟩] := by rfl
    have hbase : Tag.scan named.delimiters.baseTag "\x7bextends: bxyx".toList =
        [⟨0, "\x7bextends: bxyx".toList, "bxy", by decide⟩] := by rfl
    have hprocess : named.process [] false ['y', 'x'] = ['y', 'x'] := by
      rw [process_unclosed rfl (List.isEmpty_iff.mp (by decide +kernel))
        (List.isEmpty_iff.mp (by decide +kernel))]
      decide +kernel
    have hcompose : ∀ fuel, named.compose ⟨[], [], none⟩ [] (fuel + 2) [] [] "t" {} =
        named.finish ⟨[], [], none⟩ [] (fuel + 1) ["t"] []
          "\x7bextends: bxyx".toList ⟨[], ["t", "p"]⟩ :=
      compose_including (by decide) rfl (by decide +kernel) hinclude rfl (by decide +kernel)
        (List.isEmpty_iff.mp (by decide +kernel)) (List.isEmpty_iff.mp (by decide +kernel))
        (List.isEmpty_iff.mp (by decide +kernel)) hprocess
    have heffective : named.effectiveContext [] = [] := rfl
    rw [render_uncached rfl _ _ (by decide), heffective,
      renderFresh_misled hcompose hbase (by decide) rfl]

end Engine

end Stencil
