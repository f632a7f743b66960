import Stencil.Proofs.Composition.Capacity
import Stencil.Proofs.Composition.Settled

/-!
# Which templates a render asks for

A survey visits templates as composition does, but looks at nothing except which templates a source
names. Composition follows it: as long as nothing that is put in the place of a variable starts a
tag, it asks for the same templates in the same order and fails with the same error. So neither
depends on the context.
-/

namespace Stencil

open Recognizer Outline

/-! ## Surveys -/

/-- What a visit comes to: why it stopped, if it did, and the names asked for. -/
abbrev Answer := Option (Stop Error) × List String

namespace Answer

/-- Goes on after a visit that did not stop. -/
def proceed (x : Answer) (next : List String → Answer) : Answer :=
  match x with
  | (some stop, requests) => (some stop, requests)
  | (none, requests) => next requests

theorem proceed_none (x : Answer) : x.proceed (fun requests => (none, requests)) = x := by
  obtain ⟨stop, requests⟩ := x
  cases stop <;> rfl

/-- Visits templates one after the other. -/
def visitAll (visit : String → List String → Answer) : List String → List String → Answer
  | [], requests => (none, requests)
  | name :: names, requests => (visit name requests).proceed (visitAll visit names)

theorem visitAll_append (visit : String → List String → Answer)
    (names names' requests : List String) :
    visitAll visit (names ++ names') requests =
      (visitAll visit names requests).proceed (visitAll visit names') := by
  induction names generalizing requests with
  | nil => rfl
  | cons name names ih =>
    rw [List.cons_append, visitAll, visitAll]
    rcases visit name requests with ⟨stop, requests'⟩
    cases stop with
    | none => exact ih requests'
    | some stop => rfl

end Answer

/-- Visits a template, and then those that it names, in a graph of names. -/
def survey (links : String → Except Error (List String)) :
    (fuel : Nat) → Ancestry → String → List String → Answer
  | 0, _, _, requests => (some .outOfFuel, requests)
  | fuel + 1, path, name, requests =>
    if name ∈ path then (some (.failed (.cycle (path ++ [name]))), requests)
    else
      match links name with
      | .error err => (some (.failed err), requests ++ [name])
      | .ok names => Answer.visitAll (survey links fuel (path ++ [name])) names (requests ++ [name])

/-! ## A survey does not run out of fuel -/

namespace Answer

/-- A visit that does not run out of fuel. -/
def Finishes (x : Answer) : Prop := x.1 ≠ some .outOfFuel

theorem Finishes.proceed {x : Answer} {next : List String → Answer} (hx : Finishes x)
    (hnext : ∀ requests, Finishes (next requests)) : Finishes (x.proceed next) := by
  obtain ⟨stop, requests⟩ := x
  cases stop with
  | none => exact hnext requests
  | some stop => exact hx

theorem finishes_visitAll {visit : String → List String → Answer} {names : List String}
    (hvisit : ∀ name ∈ names, ∀ requests, Finishes (visit name requests)) (requests : List String) :
    Finishes (visitAll visit names requests) := by
  induction names generalizing requests with
  | nil => simp [visitAll, Finishes]
  | cons name names ih =>
    exact Finishes.proceed (hvisit name (by simp) requests)
      (ih fun other hother => hvisit other (by simp [hother]))

end Answer

namespace Ancestry

variable {keys mentions : List String} {path : Ancestry} {name : String}

/-- How much fuel it takes to visit a name behind a path, if a source without one of some keys names
nothing but what is mentioned in a list: one for the name itself, unless it is counted already. -/
def ahead (keys mentions : List String) (path : Ancestry) (name : String) : Nat :=
  remaining keys path + remaining mentions path + if name ∈ mentions then 0 else 1

/-- The names in a source take less than the source itself. -/
theorem ahead_concat_lt (hname : name ∉ path) {names : List String}
    (hnames : name ∈ keys ∨ ∀ n ∈ names, n ∈ mentions) {n : String} (hn : n ∈ names) :
    ahead keys mentions (path ++ [name]) n < ahead keys mentions path name := by
  have hkeys := remaining_concat_le keys path name
  -- the name itself is counted in front of it, and not behind it
  have hself : remaining mentions (path ++ [name]) + 1 ≤
      remaining mentions path + if name ∈ mentions then 0 else 1 := by
    by_cases h : name ∈ mentions
    · rw [if_pos h]
      exact remaining_concat_lt h hname
    · rw [if_neg h]
      exact Nat.add_le_add_right (remaining_concat_le mentions path name) 1
  unfold ahead
  rcases hnames with hkey | hnames
  · have hlt := remaining_concat_lt hkey hname
    have hone : (if n ∈ mentions then 0 else 1) ≤ 1 := by split <;> omega
    omega
  · rw [if_pos (hnames n hn)]
    omega

end Ancestry

/-- A survey with enough fuel does not run out of it. -/
theorem survey_finishes {links : String → Except Error (List String)} (keys mentions : List String)
    (hlinks : ∀ name names, links name = .ok names → name ∈ keys ∨ ∀ n ∈ names, n ∈ mentions)
    {fuel : Nat} {path : Ancestry} {name : String}
    (hfuel : Ancestry.ahead keys mentions path name < fuel) (requests : List String) :
    Answer.Finishes (survey links fuel path name requests) := by
  induction fuel generalizing path name requests with
  | zero => omega
  | succ fuel ih =>
    rw [survey]
    split
    · simp [Answer.Finishes]
    rename_i hname
    cases hsource : links name with
    | error err => simp [Answer.Finishes]
    | ok names =>
      refine Answer.finishes_visitAll (fun n hn requests => ih ?_ requests) _
      have hlt := Ancestry.ahead_concat_lt hname (hlinks name names hsource) hn
      omega

namespace Fragment

variable {d : Delimiters} {P Q : Type} {fs : List Fragment}

/-- How regions are stored and numbered does not matter to nesting. -/
theorem nested_shelve {plain : Text → P} {shelved : Nat → P} {plain' : Text → Q}
    {shelved' : Nat → Q} {depth count : Nat} (count' : Nat)
    (h : Nested d depth (shelve plain shelved count fs)) :
    Nested d depth (shelve plain' shelved' count' fs) := by
  induction fs generalizing depth count count' with
  | nil =>
    cases h
    exact .nil
  | cons f fs ih =>
    cases f with
    | region front content back =>
      cases h with
      | plain rest => exact .plain (ih _ rest)
    | piece q =>
      cases q with
      | plain s =>
        cases h with
        | plain rest => exact .plain (ih _ rest)
      | tag body =>
        cases h with
        | opening reads rest => exact .opening reads (ih _ rest)
        | closing reads rest => exact .closing reads (ih _ rest)
        | base reads rest => exact .base reads (ih _ rest)
        | other loose reads rest => exact .other loose reads (ih _ rest)

/-- How regions are stored and numbered does not matter to what the tags say. -/
theorem readings_shelve {α : Type} (r : Recognizer α) {plain : Text → P} {shelved : Nat → P}
    {plain' : Text → Q} {shelved' : Nat → Q} (count count' : Nat) :
    readings d r (shelve plain shelved count fs) =
      readings d r (shelve plain' shelved' count' fs) := by
  induction fs generalizing count count' with
  | nil => rfl
  | cons f fs ih =>
    cases f with
    | region front content back => exact ih _ _
    | piece q =>
      cases q with
      | plain s => exact ih _ _
      | tag body => exact congrArg ((reading d r body).toList ++ ·) (ih _ _)

/-- A source has more characters than tags. -/
theorem length_readings_shelve {α : Type} (r : Recognizer α) {plain : Text → P} {shelved : Nat → P}
    (count : Nat) (fs : List Fragment) :
    (readings d r (shelve plain shelved count fs)).length ≤ (source d fs).length := by
  induction fs generalizing count with
  | nil => exact Nat.le_refl 0
  | cons f fs ih =>
    have hlength : (source d (f :: fs)).length = (f.text d).length + (source d fs).length := by
      rw [source, List.flatMap_cons, List.length_append]
      rfl
    rw [hlength]
    cases f with
    | region front content back => exact Nat.le_trans (ih (count + 1)) (Nat.le_add_left _ _)
    | piece q =>
      cases q with
      | plain s => exact Nat.le_trans (ih count) (Nat.le_add_left _ _)
      | tag body =>
        have hleft := List.length_pos_iff.mpr d.left_ne_nil
        have hone : (reading d r body).toList.length ≤ 1 := by cases reading d r body <;> simp
        have htag : (Fragment.text d (.piece (.tag body))).length = (d.enclose body).length := rfl
        have := ih count
        rw [shelve, readings_tag, List.length_append, htag, Delimiters.enclose, List.length_append]
        omega

/-- The outline of a source with its regions put aside. -/
def outline (fs : List Fragment) : List (Piece Text) := shelve id ProtectedRegions.placeholder 0 fs

end Fragment

namespace Engine

/-- The names in a source: those of its include tags, from left to right, and those of its base
tags. -/
def namesIn (e : Engine) (source : Text) : List String :=
  let text := (ProtectedRegions.extract e.delimiters [] source).1
  (Tag.scan e.delimiters.includeTag text).map (·.content) ++
    (Tag.scan e.delimiters.baseTag text).map (·.content)

/-- The templates that a template names: those it includes, from left to right, and its base. -/
def links (e : Engine) (disk : Disk) (name : String) : Except Error (List String) :=
  (Loader.loadFirst disk e.allLoaders name).map e.namesIn

/-- Every source that an engine can load is sound, balances its blocks, and has one base tag at
most, outside all blocks. -/
def Composable (e : Engine) (disk : Disk) : Prop :=
  ∀ name s, Loader.loadFirst disk e.allLoaders name = .ok s →
    ∃ fs, s = Fragment.source e.delimiters fs ∧ Fragment.Sound e.delimiters fs ∧
      Nested e.delimiters 0 (Fragment.outline fs) ∧
      (readings e.delimiters e.delimiters.baseTag (Fragment.outline fs)).length ≤ 1

variable {e : Engine} {disk : Disk} {ctx : Context}

theorem namesIn_source (hd : e.delimiters.Apart) {fs : List Fragment}
    (hfs : Fragment.Sound e.delimiters fs) :
    e.namesIn (Fragment.source e.delimiters fs) =
      readings e.delimiters e.delimiters.includeTag (Fragment.outline fs) ++
        readings e.delimiters e.delimiters.baseTag (Fragment.outline fs) := by
  have hextract := Fragment.extract_source hd (w := id) id
    ProtectedRegions.placeholder (fun _ => rfl) (fun _ => rfl) [] hfs
  rw [namesIn, hextract]
  dsimp only
  rw [content_scan hd (Delimiters.delimited_includeTag hd) (Fragment.tidy_shelve hd hfs _),
    content_scan hd (Delimiters.delimited_baseTag hd) (Fragment.tidy_shelve hd hfs _)]
  rfl

theorem links_loaded {name : String} {s : Text}
    (hload : Loader.loadFirst disk e.allLoaders name = .ok s) :
    e.links disk name = .ok (e.namesIn s) := by
  rw [links, hload]
  rfl

theorem length_namesIn (hd : e.delimiters.Apart) {fs : List Fragment}
    (hfs : Fragment.Sound e.delimiters fs)
    (hbase : (readings e.delimiters e.delimiters.baseTag (Fragment.outline fs)).length ≤ 1) :
    (e.namesIn (Fragment.source e.delimiters fs)).length ≤
      (Fragment.source e.delimiters fs).length + 1 := by
  have hincludes : (readings e.delimiters e.delimiters.includeTag (Fragment.outline fs)).length ≤
      (Fragment.source e.delimiters fs).length :=
    Fragment.length_readings_shelve e.delimiters.includeTag 0 fs
  rw [namesIn_source hd hfs, List.length_append]
  exact Nat.add_le_add hincludes hbase

/-- The sources among some texts mention no more names than the texts have characters, and one more
for each. -/
theorem exists_mentions (hd : e.delimiters.Apart) (hsources : e.Composable disk)
    (texts : List Text) :
    ∃ mentions : List String, mentions.length ≤ (texts.map (·.length + 1)).sum ∧
      ∀ s ∈ texts, ∀ name, Loader.loadFirst disk e.allLoaders name = .ok s →
        ∀ n ∈ e.namesIn s, n ∈ mentions := by
  induction texts with
  | nil => exact ⟨[], Nat.le_refl _, by simp⟩
  | cons s texts ih =>
    obtain ⟨mentions, hlength, hmentions⟩ := ih
    by_cases hload : ∃ name, Loader.loadFirst disk e.allLoaders name = .ok s
    · obtain ⟨name, hload⟩ := hload
      obtain ⟨fs, rfl, hfs, -, hbase⟩ := hsources name s hload
      refine ⟨e.namesIn (Fragment.source e.delimiters fs) ++ mentions, ?_, ?_⟩
      · rw [List.length_append, List.map_cons, List.sum_cons]
        exact Nat.add_le_add (length_namesIn hd hfs hbase) hlength
      · intro s hs other hother n hn
        rcases List.mem_cons.mp hs with rfl | hs
        · exact List.mem_append_left _ hn
        · exact List.mem_append_right _ (hmentions s hs other hother n hn)
    · refine ⟨mentions, Nat.le_trans hlength (by simp), fun s' hs' other hother => ?_⟩
      rcases List.mem_cons.mp hs' with rfl | hs'
      · exact absurd ⟨other, hother⟩ hload
      · exact hmentions s' hs' other hother

/-- The bound on the depth of composition is no limit to a survey: it goes deeper than there are
names in memory and in the sources in files. -/
theorem survey_depthBound_finishes (hd : e.delimiters.Apart) (hsources : e.Composable disk)
    (name : String) (requests : List String) :
    Answer.Finishes (survey (e.links disk) (e.depthBound disk) [] name requests) := by
  obtain ⟨mentions, hlength, hmentions⟩ :=
    exists_mentions hd hsources (e.allLoaders.flatMap (Loader.files disk))
  refine survey_finishes (e.allLoaders.flatMap Loader.names) mentions
    (fun name names hlink => ?_) ?_ requests
  · cases hload : Loader.loadFirst disk e.allLoaders name with
    | error err =>
      rw [links, hload] at hlink
      exact absurd hlink (by simp [Except.map])
    | ok s =>
      obtain rfl := Except.ok.inj ((links_loaded hload).symm.trans hlink)
      obtain ⟨loader, hmem, hsource⟩ := Loader.exists_load hload
      rcases Loader.mem_names_or_mem_files hsource with hkey | hfile
      · exact .inl (List.mem_flatMap.mpr ⟨loader, hmem, hkey⟩)
      · exact .inr (hmentions s (List.mem_flatMap.mpr ⟨loader, hmem, hfile⟩) name hload)
  · have hbound := e.length_names_add_lt_depthBound disk
    have hkeys := Ancestry.remaining_le (e.allLoaders.flatMap Loader.names) []
    have hnames := Ancestry.remaining_le mentions []
    have hone : (if name ∈ mentions then 0 else 1) ≤ 1 := by split <;> omega
    unfold Ancestry.ahead
    omega

/-! ## Composition follows the survey -/

/-- A run comes to what a visit comes to; if it does not stop, its text is of some kind. -/
def Follows (good : Text → Prop) (x : Composed Text) (y : Answer) : Prop :=
  x.2.requests = y.2 ∧
    match x.1 with
    | .ok t => y.1 = none ∧ good t
    | .error stop => y.1 = some stop

variable {good good' : Text → Prop} {x : Composed Text} {y : Answer}

theorem Follows.andThen {next : Text → Progress → Composed Text}
    {rest : List String → Answer} (hx : Follows good x y)
    (hnext : ∀ t p, good t → Follows good' (next t p) (rest p.requests)) :
    Follows good' (Engine.andThen x next) (y.proceed rest) := by
  obtain ⟨r, p⟩ := x
  obtain ⟨stop, requests⟩ := y
  obtain ⟨hp, hr⟩ := hx
  obtain rfl : p.requests = requests := hp
  cases r with
  | error stop' =>
    obtain rfl : stop = some stop' := hr
    exact ⟨rfl, rfl⟩
  | ok t =>
    obtain ⟨rfl, ht⟩ : stop = none ∧ good t := hr
    exact hnext t p ht

theorem Follows.map {f : Text → Text} (hx : Follows good x y) (hf : ∀ t, good t → good' (f t)) :
    Follows good' (Engine.andThen x fun t p => (.ok (f t), p)) y := by
  have hmap : Follows good' (Engine.andThen x fun t p => (.ok (f t), p))
      (y.proceed fun requests => (none, requests)) :=
    hx.andThen fun t p ht => ⟨rfl, rfl, hf t ht⟩
  rwa [Answer.proceed_none] at hmap

/-- The text of a template with its includes made: an outline without includes, nested like the
template and with its base tags. -/
def Inserted (d : Delimiters) (used : Text → Prop) (depth : Nat) (ps : List (Piece Text))
    (t : Text) :
    Prop :=
  ∃ qs : List (Piece Text), t = write d id qs ∧
    (∀ q ∈ qs, (plainWeave d fun body => used body ∧ reading d d.includeTag body = none).admits q) ∧
    Nested d depth qs ∧ readings d d.baseTag qs = readings d d.baseTag ps

section

variable {d : Delimiters} {used : Text → Prop} {depth : Nat} {ps : List (Piece Text)} {t : Text}

theorem Inserted.plain (h : Inserted d used depth ps t) {s : Text} (hs : d.Plain s) :
    Inserted d used depth (.plain s :: ps) (s ++ t) := by
  obtain ⟨qs, rfl, hqs, hnested, hbase⟩ := h
  exact ⟨.plain s :: qs, by simp [Piece.text], List.forall_mem_cons.mpr ⟨hs, hqs⟩, .plain hnested,
    hbase⟩

theorem Inserted.tag {depth' : Nat} (h : Inserted d used depth' ps t) {body : Text}
    (hb : d.Free body) (hu : used body) (hi : reading d d.includeTag body = none)
    (hn : ∀ {qs : List (Piece Text)}, Nested d depth' qs → Nested d depth (.tag body :: qs)) :
    Inserted d used depth (.tag body :: ps) (d.enclose body ++ t) := by
  obtain ⟨qs, rfl, hqs, hnested, hbase⟩ := h
  exact ⟨.tag body :: qs, by simp [Piece.text], List.forall_mem_cons.mpr ⟨⟨hb, hu, hi⟩, hqs⟩,
    hn hnested, by rw [readings_tag, readings_tag, hbase]⟩

theorem Inserted.settled (h : Inserted d used depth ps t) {s : Text} (hs : Settled d used s) :
    Inserted d used depth ps (s ++ t) := by
  obtain ⟨qs, rfl, hqs, hnested, hbase⟩ := h
  obtain ⟨rs, hrs, hs⟩ := hs
  obtain rfl : s = write d id rs := hs ()
  clear hs
  induction rs with
  | nil => exact ⟨qs, rfl, hqs, hnested, hbase⟩
  | cons r rs ih =>
    have hr := hrs r (by simp)
    have ih := ih fun q hq => hrs q (by simp [hq])
    rw [write_cons, List.append_assoc]
    cases r with
    | plain s => exact ih.plain hr
    | tag body =>
      obtain ⟨hb, hu, hloose, hi, hnone⟩ := hr
      obtain ⟨qs', heq, hqs', hnested', hbase'⟩ := ih.tag hb hu hi (.other hloose hnone)
      exact ⟨qs', heq, hqs', hnested', by rw [hbase', readings_tag, hnone]; rfl⟩

/-- Making the includes of a nested template follows the visit of the templates included. -/
theorem follows_insertAll (hd : d.Apart)
    {visit : String → Progress → Composed Text}
    {answer : String → List String → Answer}
    (hvisit : ∀ name p, Follows (Settled d used) (visit name p) (answer name p.requests))
    (hps : ∀ q ∈ ps, (plainWeave d used).admits q) (h : Nested d depth ps) (p : Progress) :
    Follows (Inserted d used depth ps) (insertAll d id visit ps p)
      (Answer.visitAll answer (readings d d.includeTag ps) p.requests) := by
  -- a tag that is no include is kept
  have hkeep : ∀ {depth depth' : Nat} {body : Text} {ps : List (Piece Text)} {p : Progress},
      d.Free body → used body → reading d d.includeTag body = none →
      (∀ {qs : List (Piece Text)}, Nested d depth' qs → Nested d depth (.tag body :: qs)) →
      Follows (Inserted d used depth' ps) (insertAll d id visit ps p)
        (Answer.visitAll answer (readings d d.includeTag ps) p.requests) →
      Follows (Inserted d used depth (.tag body :: ps)) (insertAll d id visit (.tag body :: ps) p)
        (Answer.visitAll answer (readings d d.includeTag (.tag body :: ps)) p.requests) := by
    intro depth depth' body ps p hb hu hi hn ih
    rw [insertAll, readings_tag, hi]
    exact ih.map fun t ht => ht.tag hb hu hi hn
  induction h generalizing p with
  | nil => exact ⟨rfl, rfl, [], rfl, by simp, .nil, rfl⟩
  | plain rest ih =>
    have hs := hps _ List.mem_cons_self
    exact (ih (fun q hq => hps q (by simp [hq])) p).map fun t ht => ht.plain hs
  | @opening n body name ps reads rest ih =>
    obtain ⟨hb, hu⟩ := hps _ List.mem_cons_self
    exact hkeep hb hu (Delimiters.not_include_of_blockOpening hd hb reads) (.opening reads)
      (ih (fun q hq => hps q (by simp [hq])) p)
  | @closing n body ps reads rest ih =>
    obtain ⟨hb, hu⟩ := hps _ List.mem_cons_self
    exact hkeep hb hu (Delimiters.not_include_of_blockClosing hd hb reads) (.closing reads)
      (ih (fun q hq => hps q (by simp [hq])) p)
  | @base body name ps reads rest ih =>
    obtain ⟨hb, hu⟩ := hps _ List.mem_cons_self
    exact hkeep hb hu (Delimiters.not_include_of_baseTag hd hb reads) (.base reads)
      (ih (fun q hq => hps q (by simp [hq])) p)
  | @other n body ps loose reads rest ih =>
    obtain ⟨hb, hu⟩ := hps _ List.mem_cons_self
    have hps' : ∀ q ∈ ps, (plainWeave d used).admits q := fun q hq => hps q (by simp [hq])
    cases hi : reading d d.includeTag body with
    | none => exact hkeep hb hu hi (.other loose reads) (ih hps' p)
    | some name =>
      have hbases : readings d d.baseTag (.tag body :: ps) = readings d d.baseTag ps := by
        rw [readings_tag, reads]
        rfl
      rw [insertAll, readings_tag, hi]
      refine (hvisit name p).andThen fun s p hs => (ih hps' p).map fun t ht => ?_
      obtain ⟨qs, heq, hqs, hnested, hbase⟩ := ht.settled hs
      exact ⟨qs, heq, hqs, hnested, by rw [hbase, hbases]⟩

end

/-- The tags of the sources that have no part in composition, under contexts that put no tags into
the place of variables. -/
theorem plainWeave_scopes {outer : Context} {kind : Text → Prop}
    (hputs : ∀ t, e.Puts disk outer t → e.delimiters.Plain t) :
    (plainWeave e.delimiters fun body => e.Uses disk body ∧ kind body).Scopes e
      fun c => e.Scope disk outer (c ()) where
  text := by
    intro c hc body v hbody hread
    cases htext : e.substitution.text? (c ()) v with
    | none => exact .inl fun _ => htext
    | some t => exact .inr ⟨t, hputs t ⟨c (), body, v, hc, hbody.2.1, hread, htext⟩, fun _ => htext⟩
  rows := by
    intro c hc body head hbody hhead
    exact ⟨Loop.rows (c ()) head, fun _ => rfl, fun x hx => .row hc hbody.2.1 hhead hx⟩
  holds := by
    intro c hc body condition hbody hread x hx i j
    rfl

/-- What becomes of a text whose includes have been made follows the visit of its base. -/
theorem follows_finish (hd : e.delimiters.Apart) {used : Text → Prop} {fuel : Nat} {path : Ancestry}
    {answer : String → List String → Answer}
    (hcompose : ∀ {definitions : Blocks} name p,
      (∀ x ∈ definitions, Definable e.delimiters used x.2) →
        Follows (Settled e.delimiters used) (e.compose disk ctx fuel path definitions name p)
          (answer name p.requests))
    {definitions : Blocks} (hdefs : ∀ x ∈ definitions, Definable e.delimiters used x.2)
    {ps : List (Piece Text)} (hps : Prepared e.delimiters used ps)
    (hbase : (readings e.delimiters e.delimiters.baseTag ps).length ≤ 1) (p : Progress) :
    Follows (Settled e.delimiters used)
      (e.finish disk ctx fuel path definitions (write e.delimiters id ps) p)
      (Answer.visitAll answer (readings e.delimiters e.delimiters.baseTag ps) p.requests) := by
  rw [finish_write hd fuel path definitions (tidy_of_plainWeave hps.admits)]
  cases hfirst : firstTag e.delimiters e.delimiters.baseTag ps with
  | none =>
    have hnone := firstTag_eq_none hfirst
    rw [hnone]
    exact ⟨rfl, rfl, settled_resolve hd hdefs [] hps hnone⟩
  | some x =>
    obtain ⟨front, name, body, back⟩ := x
    have hone : readings e.delimiters e.delimiters.baseTag ps = [name] := by
      have hsplit := readings_firstTag hfirst
      rw [hsplit, List.length_append, List.length_cons] at hbase
      rw [hsplit, List.length_eq_zero_iff.mp (show (readings _ _ front).length = 0 by omega),
        List.length_eq_zero_iff.mp (show (readings _ _ back).length = 0 by omega)]
      rfl
    rw [hone, Answer.visitAll]
    refine Follows.andThen (hcompose name p (definable_collect hd hdefs hps)) fun base p hs => ?_
    exact ⟨rfl, rfl, settled_withBase hd hps hbase hs⟩

/-- Composition follows the survey of the names. -/
theorem follows_compose (hd : e.delimiters.Apart) (hplugins : e.plugins = [])
    (hsources : e.Composable disk) (hputs : ∀ t, e.Puts disk ctx t → e.delimiters.Plain t)
    (fuel : Nat) (path : Ancestry) {definitions : Blocks}
    (hdefs : ∀ x ∈ definitions, Definable e.delimiters (e.Uses disk) x.2) (name : String)
    (p : Progress) :
    Follows (Settled e.delimiters (e.Uses disk))
      (e.compose disk ctx fuel path definitions name p)
      (survey (e.links disk) fuel path name p.requests) := by
  induction fuel generalizing path definitions name p with
  | zero => exact ⟨rfl, rfl⟩
  | succ fuel ih =>
    by_cases hname : name ∈ path
    · rw [compose_succ, if_pos hname, survey, if_pos hname]
      exact ⟨rfl, rfl⟩
    · rw [survey, if_neg hname]
      cases hload : Loader.loadFirst disk e.allLoaders name with
      | error err =>
        rw [compose_succ, if_neg hname, request_run, hload, links, hload]
        exact ⟨rfl, rfl⟩
      | ok source =>
        obtain ⟨fs, rfl, hfs, hnested, hbase⟩ := hsources name _ hload
        rw [links_loaded hload, namesIn_source hd hfs,
          compose_source ctx hd (w := id) id ProtectedRegions.placeholder
            (fun _ => rfl) (fun _ => rfl) hfs hload
            (Fragment.tidy_shelve hd hfs) fuel path definitions p hname]
        dsimp only
        rw [Answer.visitAll_append]
        have hadmits : ∀ q ∈ Fragment.shelve id ProtectedRegions.placeholder p.regions.length fs,
            (plainWeave e.delimiters (e.Uses disk)).admits q :=
          Fragment.forall_mem_shelve (fun _ hs => hfs.plain hs) hd.plain_placeholder
            (fun _ hb => ⟨hfs.free hb, name, fs, hload, hfs, hb⟩) _
        have hsame : ∀ r : Recognizer String, readings e.delimiters r (Fragment.outline fs) =
            readings e.delimiters r
              (Fragment.shelve id ProtectedRegions.placeholder p.regions.length fs) :=
          fun r => Fragment.readings_shelve r _ _
        rw [hsame] at hbase
        rw [hsame, hsame]
        refine Follows.andThen (follows_insertAll hd (fun name p => ?_) hadmits
          (Fragment.nested_shelve _ hnested) _) fun t p ht => ?_
        · -- a partial is rendered as soon as it has been composed
          refine (ih (path ++ [_]) (List.forall_mem_nil _) name p).map fun t ht => ?_
          exact ht.process hd hplugins (plainWeave_scopes hputs) .here false
        · obtain ⟨qs, rfl, hqs, hnested, hreadings⟩ := ht
          rw [← hreadings] at hbase ⊢
          exact follows_finish hd (fun name p hdefs => ih _ hdefs name p) hdefs
            ⟨hqs, hnested⟩ hbase p

/-- A render without a cache asks for what the survey asks for, and fails as it does. -/
theorem render_follows_survey {σ : Type} (ctx : Context) (hd : e.delimiters.Apart)
    (hcache : e.cacheEnabled = false) (hplugins : e.plugins = []) (hsources : e.Composable disk)
    (hputs : ∀ t, e.Puts disk (e.effectiveContext ctx) t → e.delimiters.Plain t)
    (store : CacheStore σ) (s : σ) {name : String} (hname : name.toList.all isBlank = false) :
    let answer := survey (e.links disk) (e.depthBound disk) [] name []
    let rendered := e.render disk store s name ctx
    rendered.requests = answer.2 ∧
      match answer.1 with
      | none => ∃ t, rendered.outcome = .ok t
      | some (.failed err) => rendered.outcome = .error err
      | some .outOfFuel => False := by
  dsimp only
  have hfollows := follows_compose hd hplugins hsources hputs (e.depthBound disk) []
    (List.forall_mem_nil _) name {}
  have hfinishes := survey_depthBound_finishes hd hsources name []
  rw [render_uncached hcache store s hname]
  rcases hrun : e.compose disk (e.effectiveContext ctx)
    (e.depthBound disk) [] [] name {} with ⟨r, p⟩
  rw [hrun] at hfollows
  cases r with
  | error stop =>
    obtain ⟨hrequests, hstop⟩ := hfollows
    rw [renderFresh_error hrun, ← hrequests]
    simp only at hstop
    rw [hstop]
    cases stop with
    | failed err => exact ⟨rfl, rfl⟩
    | outOfFuel => exact absurd hstop hfinishes
  | ok t =>
    obtain ⟨hrequests, hstop, -⟩ := hfollows
    rw [renderFresh_ok hrun, ← hrequests, hstop]
    exact ⟨rfl, _, rfl⟩

end Engine

end Stencil
