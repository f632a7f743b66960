import Stencil.Proofs.Document.Graft

/-!
# Includes as inlining

A page includes partials outside its loops. A partial is rendered before its text is put into the
page, and the page is rendered after. It makes no difference to write the sources of the partials
into the page instead: either way every pass finds a spelling of a document, and both documents mean
what the page means with its includes meaning what the partials mean.
-/

namespace Stencil

open Recognizer Outline Delimiters ProtectedRegions
open List (Forall₂)

/-! ## Replacing include tags -/

/-- An include tag spells the name of the template that it includes. -/
def IsInclude (d : Delimiters) (name : String) (q : Piece Text) : Prop :=
  ∃ body, q = .tag body ∧ d.Free body ∧ reading d d.includeTag body = some name

/-- What takes the place of a piece, if include tags are replaced. -/
def Outline.inlined (d : Delimiters) (content : String → List (Piece Text)) :
    Piece Text → List (Piece Text)
  | .plain s => [.plain s]
  | .tag body =>
    match reading d d.includeTag body with
    | some name => content name
    | none => [.tag body]

section

variable {d : Delimiters} {ps : List (Piece Text)} {content : String → List (Piece Text)}

/-- An include tag protects nothing. -/
theorem regionOpening_of_include (hd : d.Apart) {body : Text} {name : String} (hb : d.Free body)
    (h : reading d d.includeTag body = some name) : reading d d.regionOpening body = none := by
  refine Option.eq_none_iff_forall_ne_some.mpr fun u hu => ?_
  have hlead := (leadingWord_regionOpening hd hb hu).symm.trans (names_includeTag hd hb h).1
  exact absurd hlead (by decide)

/-- Replacing the include tags of a text replaces those of its outline. -/
theorem replaceTags_include (hd : d.Apart) (hps : Tidy d id ps) :
    (write d id ps).replaceTags d.includeTag (fun t => write d id (content t.content)) =
      write d id (ps.flatMap (inlined d content)) := by
  rw [replaceTags_write hd (delimited_includeTag hd) hps fun name _ => write d id (content name),
    write_flatMap]
  congr 1
  funext q
  cases q with
  | plain s => simp [inlined, Piece.text]
  | tag body =>
    rw [inlined]
    cases hread : reading d d.includeTag body <;> simp [hread, Piece.text]

/-- If the includes of a page are replaced by spellings of documents, the outcome spells the page
with the documents in their places. -/
theorem Doc.SpelledBy.graft {legacy : List Text} (hd : d.Apart)
    (hlegacy : ∀ p ∈ legacy, Unreserved p) {page : Doc String}
    (hpage : page.Obeys (wording d legacy String)) (h : page.SpelledBy d (IsInclude d) ps)
    {g : String → Doc Nat}
    (hg : ∀ name ∈ page.contents, (g name).SpelledBy d IsPlaceholder (content name)) :
    (page.graft g).SpelledBy d IsPlaceholder (ps.flatMap (inlined d content)) := by
  refine h.flatMap fun y hy q hq => ?_
  cases hq with
  | text s => exact .cons (.text s) .nil
  | @region name _ hq =>
    obtain ⟨body, rfl, -, hread⟩ := hq
    rw [inlined, hread]
    exact hg name (Doc.mem_contents.mpr hy)
  | @mark m body hb hspells =>
    have hclear := Mark.clear_of_obeys strict_wording (Doc.obeys_skeleton hpage _ hy)
    rw [inlined, (Mark.reads hd hlegacy hclear hb hspells).silent.include_]
    exact .cons (.mark hb hspells) .nil

end

/-! ## Pages with includes -/

/-- A page that includes partials, outside its loops, and how all of these are spelled. -/
structure Inclusion (d : Delimiters) where
  /-- The page. Its regions are its includes, by the names of the partials. -/
  page : Doc String
  /-- The partials, which have no regions. -/
  partials : String → Doc Empty
  /-- How the page is spelled. -/
  outline : List (Piece Text)
  /-- How the partials are. -/
  outlines : String → List (Piece Text)
  /-- The paths of the legacy loops of the page and the partials. -/
  legacy : List Text
  /-- These paths start with no reserved word. -/
  unreserved : ∀ path ∈ legacy, Unreserved path
  /-- The page has the wording of a document. -/
  wording_page : page.Obeys (wording d legacy String)
  /-- So have the partials that it includes. -/
  wording_partials : ∀ name ∈ page.contents, (partials name).Obeys (wording d legacy Empty)
  /-- The outline of the page spells it, with an include tag for each partial. -/
  spelled_page : page.SpelledBy d (IsInclude d) outline
  /-- The outlines of the partials spell these. -/
  spelled_partials : ∀ name ∈ page.contents,
    (partials name).SpelledBy d (fun _ _ => False) (outlines name)
  /-- No include stands in a loop. -/
  outside : page.Outside

namespace Inclusion

variable {d : Delimiters}

/-- The source of the page. -/
def source (x : Inclusion d) : Text := write d id x.outline

/-- The source of a partial. -/
def partialSource (x : Inclusion d) (name : String) : Text := write d id (x.outlines name)

/-- The source of the page with the sources of the partials in the places of its include tags. -/
def inlined (x : Inclusion d) : Text :=
  x.source.replaceTags d.includeTag fun t => x.partialSource t.content

/-- The values of the page and of the partials that it includes are texts in which no tag starts. -/
def Resolves (x : Inclusion d) (e : Engine) (ctx : Context) : Prop :=
  x.page.Resolves e ctx ∧ ∀ name ∈ x.page.contents, (x.partials name).Resolves e ctx

/-- What a partial means. -/
def partialMeaning (x : Inclusion d) (e : Engine) (ctx : Context) (name : String) : Text :=
  (x.partials name).meaning e Empty.elim ctx

/-- What the page means. -/
def meaning (x : Inclusion d) (e : Engine) (ctx : Context) : Text :=
  x.page.meaning e (x.partialMeaning e ctx) ctx

/-- A partial as a document with numbered regions, of which it has none. -/
def partialDoc (x : Inclusion d) (name : String) : Doc Nat := (x.partials name).graft Empty.elim

variable {x : Inclusion d} {name : String}

theorem contents_partial (x : Inclusion d) (name : String) : (x.partials name).contents = [] :=
  List.eq_nil_iff_forall_not_mem.mpr fun content => content.elim

theorem obeys_partialDoc (hname : name ∈ x.page.contents) :
    (x.partialDoc name).Obeys (wording d x.legacy Nat) :=
  Doc.obeys_graft (x.wording_partials name hname) fun content => content.elim

theorem spelled_partialDoc (hname : name ∈ x.page.contents) :
    (x.partialDoc name).SpelledBy d IsPlaceholder (x.outlines name) := by
  rw [← List.flatMap_singleton' (x.outlines name)]
  refine (x.spelled_partials name hname).flatMap fun y _ q hq => ?_
  cases hq with
  | text s => exact .cons (.text s) .nil
  | region hq => exact hq.elim
  | mark hb hspells => exact .cons (.mark hb hspells) .nil

theorem tidy_outline (x : Inclusion d) : Tidy d id x.outline :=
  x.spelled_page.tidy strict_wording x.wording_page (by rintro _ _ ⟨body, rfl, hb, -⟩; exact hb)

theorem tidy_outlines (hname : name ∈ x.page.contents) : Tidy d id (x.outlines name) :=
  (x.spelled_partials name hname).tidy strict_wording (x.wording_partials name hname)
    fun _ _ h => h.elim

theorem silent_outlines (hd : d.Apart) (hname : name ∈ x.page.contents) :
    ∀ body, .tag body ∈ x.outlines name → d.Silent body :=
  (x.spelled_partials name hname).silent hd x.unreserved strict_wording
    (x.wording_partials name hname) fun _ _ h => h.elim

/-- What an include tag of the page names is one of its partials. -/
theorem mem_contents (hd : d.Apart) {body : Text} (hbody : .tag body ∈ x.outline)
    (hread : reading d d.includeTag body = some name) : name ∈ x.page.contents := by
  revert hread
  refine x.spelled_page.forall_tag (A := fun body => reading d d.includeTag body = some name →
    name ∈ x.page.contents) (fun name' body hname' hq hread => ?_)
      (fun m body hm hb hspells hread => ?_)
    body hbody
  · obtain ⟨body', heq, -, hread'⟩ := hq
    obtain rfl := Piece.tag.inj heq
    obtain rfl := Option.some.inj (hread'.symm.trans hread)
    exact Doc.mem_contents.mpr hname'
  · have hclear := Mark.clear_of_obeys strict_wording (Doc.obeys_skeleton x.wording_page _ hm)
    rw [(Mark.reads hd x.unreserved hclear hb hspells).silent.include_] at hread
    exact absurd hread (by simp)

/-- The page protects nothing. -/
theorem regionOpening_outline (x : Inclusion d) (hd : d.Apart) : ∀ body, .tag body ∈ x.outline →
    reading d d.regionOpening body = none := by
  refine x.spelled_page.forall_tag (fun name body _ hq => ?_) fun m body hm hb hspells => ?_
  · obtain ⟨body', heq, hb, hread⟩ := hq
    exact Piece.tag.inj heq ▸ regionOpening_of_include hd hb hread
  · have hclear := Mark.clear_of_obeys strict_wording (Doc.obeys_skeleton x.wording_page _ hm)
    exact (Mark.reads hd x.unreserved hclear hb hspells).silent.region

/-- A template that includes another is not that template. -/
theorem source_ne_partialSource (hd : d.Apart) (hname : name ∈ x.page.contents) :
    x.source ≠ x.partialSource name := by
  intro h
  obtain ⟨q, hq, hspells⟩ := x.spelled_page.exists_mem (Doc.mem_contents.mp hname)
  obtain ⟨body, rfl, hb, hread⟩ : IsInclude d name q := by
    cases hspells with
    | region hq => exact hq
  have hinfix : d.enclose body <:+: write d id (x.outlines name) := by
    rw [show write d id (x.outlines name) = x.source from h.symm]
    obtain ⟨front, back, heq⟩ := List.append_of_mem hq
    exact ⟨write d id front, write d id back, by simp [source, heq, write, Piece.text]⟩
  have hmem := mem_of_isInfix hd (tidy_outlines hname) hb hinfix
  rw [(silent_outlines hd hname body hmem).include_] at hread
  exact absurd hread (by simp)

end Inclusion

/-! ## Rendering -/

namespace Engine

variable {e : Engine} {disk : Disk} {ctx : Context}

/-- Composing a template whose outline has no part in composition. -/
theorem compose_outline (hd : e.delimiters.Apart) {ps : List (Piece Text)}
    (hps : Tidy e.delimiters id ps) (hsilent : ∀ body, .tag body ∈ ps → e.delimiters.Silent body)
    {name : String}
    (hload : Loader.loadFirst disk e.allLoaders name = .ok (write e.delimiters id ps)) (fuel : Nat)
    {ancestry : Ancestry} (hname : name ∉ ancestry) (p : Progress) :
    e.compose disk ctx (fuel + 1) ancestry [] name p =
      (.ok (write e.delimiters id ps), ⟨p.regions, p.requests ++ [name]⟩) := by
  have hsound : Fragment.Sound e.delimiters (ps.map .piece) :=
    Fragment.sound_pieces (fun s hs => hps _ hs) fun body hbody =>
      ⟨hps _ hbody, (hsilent body hbody).region⟩
  rw [← Fragment.source_pieces] at hload
  rw [compose_silent_within ctx hd hsound hload
    (fun body hbody => hsilent body (by simpa using hbody))
    fuel hname p, Fragment.shelve_pieces, Fragment.contents_pieces, List.append_nil]

/-- Making includes replaces the tags of an outline, if every partial is rendered as some text. -/
theorem insertAll_inlined {d : Delimiters} {ps : List (Piece Text)}
    {visit : String → Progress → Composed Text} {content : String → Text}
    (hvisit : ∀ body name, .tag body ∈ ps → reading d d.includeTag body = some name → ∀ p,
      visit name p = (.ok (content name), ⟨p.regions, p.requests ++ [name]⟩)) (p : Progress) :
    ∃ requests, insertAll d id visit ps p =
      (.ok (write d id (ps.flatMap (inlined d fun name => [.plain (content name)]))),
        ⟨p.regions, requests⟩) := by
  induction ps generalizing p with
  | nil => exact ⟨p.requests, rfl⟩
  | cons q ps ih =>
    have ih := ih fun body name hbody => hvisit body name (List.mem_cons_of_mem _ hbody)
    cases q with
    | plain s =>
      obtain ⟨requests, h⟩ := ih p
      refine ⟨requests, ?_⟩
      rw [insertAll, h, List.flatMap_cons, inlined, List.singleton_append, write_cons]
      rfl
    | tag body =>
      cases hread : reading d d.includeTag body with
      | none =>
        obtain ⟨requests, h⟩ := ih p
        refine ⟨requests, ?_⟩
        rw [insertAll, List.flatMap_cons, inlined, hread, List.singleton_append, write_cons]
        simp only [h]
        rfl
      | some name =>
        have hv := hvisit body name List.mem_cons_self hread p
        obtain ⟨requests, h⟩ := ih ⟨p.regions, p.requests ++ [name]⟩
        refine ⟨requests, ?_⟩
        rw [insertAll, List.flatMap_cons, inlined, hread, List.singleton_append, write_cons]
        simp only [hv, andThen, h]
        rfl

/-- What can take the place of an include: a document that means what the partial means, and how it
is spelled. -/
structure StandsFor (e : Engine) (ctx : Context) (x : Inclusion e.delimiters) (name : String)
    (doc : Doc Nat) (ps : List (Piece Text)) : Prop where
  /-- It has the wording of a document. -/
  obeys : doc.Obeys (wording e.delimiters x.legacy Nat)
  /-- It is spelled like this. -/
  spelled : doc.SpelledBy e.delimiters IsPlaceholder ps
  /-- Its values are texts in which no tag starts. -/
  resolves : doc.Resolves e ctx
  /-- It means what the partial means. -/
  meaning : doc.meaning e placeholder ctx = x.partialMeaning e ctx name

section

variable {x : Inclusion e.delimiters} {name : String}

/-- The partial itself can. -/
theorem standsFor_partial (hx : x.Resolves e ctx) (hname : name ∈ x.page.contents) :
    e.StandsFor ctx x name (x.partialDoc name) (x.outlines name) where
  obeys := Inclusion.obeys_partialDoc hname
  spelled := Inclusion.spelled_partialDoc hname
  resolves := Doc.resolves_graft _ ctx (Doc.outside_of_contents (x.contents_partial name))
    (hx.2 name hname) fun content => content.elim
  meaning := Doc.meaning_graft _ ctx (Doc.outside_of_contents (x.contents_partial name))
    fun content => content.elim

/-- So can the text that it means. -/
theorem standsFor_text (hx : x.Resolves e ctx) (hname : name ∈ x.page.contents) :
    e.StandsFor ctx x name (.text (x.partialMeaning e ctx name) .nil)
      [.plain (x.partialMeaning e ctx name)] where
  obeys := ⟨(x.partials name).plain_meaning (r := wording e.delimiters x.legacy Empty) id
    (fun content => content.elim) ctx (x.wording_partials name hname) (hx.2 name hname), trivial⟩
  spelled := .cons (.text _) .nil
  resolves := trivial
  meaning := List.append_nil _

/-- A partial is rendered as what it means. -/
theorem process_partial (hd : e.delimiters.Apart) (hplugins : e.plugins = [])
    (hx : x.Resolves e ctx) (hname : name ∈ x.page.contents) (isDocument : Bool) :
    e.process ctx isDocument (x.partialSource name) = x.partialMeaning e ctx name := by
  have h := standsFor_partial hx hname
  exact (h.spelled.process hd hplugins x.unreserved strict_wording h.obeys
    h.resolves isDocument).trans
    h.meaning

section

variable {doc : String → Doc Nat} {content : String → List (Piece Text)}
  (h : ∀ name ∈ x.page.contents, e.StandsFor ctx x name (doc name) (content name))

include h

/-- The outline of the page with includes replaced is tidy, and has no part in composition. -/
theorem tidy_replaced (hd : e.delimiters.Apart) :
    Tidy e.delimiters id (x.outline.flatMap (inlined e.delimiters content)) ∧
      ∀ body, .tag body ∈ x.outline.flatMap (inlined e.delimiters content) →
        e.delimiters.Silent body := by
  have hobeys := Doc.obeys_graft x.wording_page fun name hname => (h name hname).obeys
  have hspelled := x.spelled_page.graft hd x.unreserved x.wording_page fun name hname =>
    (h name hname).spelled
  exact ⟨hspelled.tidy strict_wording hobeys
    (by rintro index _ rfl; exact hd.plain_placeholder index),
    hspelled.silent hd x.unreserved strict_wording hobeys (by simp [IsPlaceholder])⟩

/-- Whatever stands for the partials, the page is rendered as what it means. -/
theorem process_replaced (hd : e.delimiters.Apart) (hplugins : e.plugins = [])
    (hpage : x.page.Resolves e ctx) (isDocument : Bool) :
    e.process ctx isDocument
        (write e.delimiters id (x.outline.flatMap (inlined e.delimiters content))) =
      x.meaning e ctx := by
  have hobeys := Doc.obeys_graft x.wording_page fun name hname => (h name hname).obeys
  have hspelled := x.spelled_page.graft hd x.unreserved x.wording_page fun name hname =>
    (h name hname).spelled
  have hresolves := x.page.resolves_graft ctx x.outside hpage fun name hname =>
    (h name hname).resolves
  exact (hspelled.process hd hplugins x.unreserved strict_wording hobeys hresolves isDocument).trans
    (x.page.meaning_graft ctx x.outside fun name hname => (h name hname).meaning)

end

/-- Composing a page puts what its partials mean into the places of its includes. -/
theorem compose_inclusion (hd : e.delimiters.Apart) (hplugins : e.plugins = [])
    (hx : x.Resolves e ctx) {page : String}
    (hload : Loader.loadFirst disk e.allLoaders page = .ok x.source)
    (hpartials : ∀ name ∈ x.page.contents,
      Loader.loadFirst disk e.allLoaders name = .ok (x.partialSource name)) (fuel : Nat) :
    ∃ requests, e.compose disk ctx (fuel + 2) [] [] page {} =
      (.ok (write e.delimiters id (x.outline.flatMap
        (inlined e.delimiters fun name => [.plain (x.partialMeaning e ctx name)]))),
          ⟨[], requests⟩) := by
  have hsound : Fragment.Sound e.delimiters (x.outline.map .piece) :=
    Fragment.sound_pieces (fun s hs => x.tidy_outline _ hs) fun body hbody =>
      ⟨x.tidy_outline _ hbody, x.regionOpening_outline hd body hbody⟩
  -- a partial includes nothing, so none is the page and one level of composition is enough
  have hvisit : ∀ body name, .tag body ∈ x.outline →
      reading e.delimiters e.delimiters.includeTag body = some name → ∀ p,
        e.visit disk ctx (fuel + 1) [page] name p =
          (.ok (x.partialMeaning e ctx name), ⟨p.regions, p.requests ++ [name]⟩) := by
    intro body name hbody hread p
    have hname := Inclusion.mem_contents hd hbody hread
    have hne : name ∉ [page] := by
      intro hmem
      obtain rfl := List.mem_singleton.mp hmem
      exact Inclusion.source_ne_partialSource hd hname
        (Except.ok.inj (hload.symm.trans (hpartials name hname)))
    rw [visit, compose_outline hd (Inclusion.tidy_outlines hname)
      (Inclusion.silent_outlines hd hname)
      (hpartials name hname) fuel hne p, andThen]
    exact congrArg (fun t => (Except.ok t, _)) (process_partial hd hplugins hx hname false)
  obtain ⟨htidy, hsilent⟩ := tidy_replaced (fun name hname => standsFor_text hx hname) hd
  obtain ⟨requests, hinsert⟩ := insertAll_inlined hvisit ⟨[], [page]⟩
  refine ⟨requests, ?_⟩
  rw [compose_source ctx hd id placeholder (fun _ => rfl) (fun _ => rfl) hsound
    (by rw [Fragment.source_pieces]; exact hload) (Fragment.tidy_shelve hd hsound)
    (fuel + 1) [] [] {}
    (by simp), Fragment.shelve_pieces, Fragment.contents_pieces]
  refine (congrArg (andThen · _) hinsert).trans ?_
  exact finish_silent hd (fuel + 1) _ htidy hsilent _

/-- A page is rendered as what it means. -/
theorem outcome_inclusion {σ : Type} (hd : e.delimiters.Apart) (hcache : e.cacheEnabled = false)
    (hplugins : e.plugins = []) {page : String} (hpage : page.toList.all isBlank = false)
    (hload : Loader.loadFirst disk e.allLoaders page = .ok x.source)
    (hpartials : ∀ name ∈ x.page.contents,
      Loader.loadFirst disk e.allLoaders name = .ok (x.partialSource name))
    (store : CacheStore σ) (s : σ) {ctx : Context} (hx : x.Resolves e (e.effectiveContext ctx)) :
    (e.render disk store s page ctx).outcome = .ok (x.meaning e (e.effectiveContext ctx)) := by
  obtain ⟨n, hn⟩ := e.exists_depthBound disk
  obtain ⟨requests, hcompose⟩ := compose_inclusion hd hplugins hx hload hpartials n
  rw [← hn] at hcompose
  rw [outcome_uncached hcache store s hpage, renderFresh_ok hcompose]
  exact congrArg Except.ok (process_replaced (fun name hname => standsFor_text hx hname) hd hplugins
    hx.1 true)

/-- So is the page with the sources of the partials in the places of its include tags, wherever it
is loaded from. -/
theorem outcome_inlined {σ : Type} (hd : e.delimiters.Apart) (hcache : e.cacheEnabled = false)
    (hplugins : e.plugins = []) {sources : Sources} {loaders : List Loader} {page : String}
    (hpage : page.toList.all isBlank = false)
    (hload : Loader.loadFirst disk (Engine.allLoaders { e with sources, loaders }) page =
      .ok x.inlined)
    (store : CacheStore σ) (s : σ) {ctx : Context} (hx : x.Resolves e (e.effectiveContext ctx)) :
    (Engine.render { e with sources, loaders } disk store s page ctx).outcome =
      .ok (x.meaning e (e.effectiveContext ctx)) := by
  obtain ⟨htidy, hsilent⟩ := tidy_replaced (fun name hname => standsFor_partial hx hname) hd
  have hinlined : x.inlined = write e.delimiters id
      (x.outline.flatMap (inlined e.delimiters x.outlines)) :=
    replaceTags_include hd x.tidy_outline
  rw [hinlined] at hload
  obtain ⟨n, hn⟩ := Engine.exists_depthBound { e with sources, loaders } disk
  have hcompose : Engine.compose { e with sources, loaders } disk (e.effectiveContext ctx) (n + 2)
      [] [] page {} = (_, ⟨[], [page]⟩) :=
    compose_outline (e := { e with sources, loaders }) hd htidy hsilent hload (n + 1)
      List.not_mem_nil {}
  rw [← hn] at hcompose
  rw [outcome_uncached (e := { e with sources, loaders }) hcache store s hpage]
  refine (congrArg Prod.fst (renderFresh_ok hcompose)).trans ?_
  exact congrArg Except.ok (process_replaced (fun name hname => standsFor_partial hx hname) hd
    hplugins hx.1 true)

/-- Includes outside loops are inlining: rendering a page gives what rendering the page gives with
the sources of the partials in the places of its include tags. -/
theorem render_inlined {σ : Type} (hd : e.delimiters.Apart) (hcache : e.cacheEnabled = false)
    (hplugins : e.plugins = []) (x : Inclusion e.delimiters) {page : String}
    (hpage : page.toList.all isBlank = false)
    (hload : Loader.loadFirst disk e.allLoaders page = .ok x.source)
    (hpartials : ∀ name ∈ x.page.contents,
      Loader.loadFirst disk e.allLoaders name = .ok (x.partialSource name))
    (store : CacheStore σ) (s : σ) {ctx : Context} (hx : x.Resolves e (e.effectiveContext ctx))
    {sources : Sources} {loaders : List Loader} {disk' : Disk} {page' : String}
    (hpage' : page'.toList.all isBlank = false)
    (hload' : Loader.loadFirst disk' (Engine.allLoaders { e with sources, loaders }) page' =
      .ok x.inlined) :
    (e.render disk store s page ctx).outcome =
        (Engine.render { e with sources, loaders } disk' store s page' ctx).outcome ∧
      (e.render disk store s page ctx).outcome = .ok (x.meaning e (e.effectiveContext ctx)) :=
  have hinclusion := outcome_inclusion hd hcache hplugins hpage hload hpartials store s hx
  ⟨hinclusion.trans (outcome_inlined hd hcache hplugins hpage' hload' store s hx).symm, hinclusion⟩

end

/-- A page that shows a partial if there is something to show. -/
def greeting : Inclusion .braces where
  page := .choice "x".toList (.region "p" .nil) .nil (.text ['!'] .nil)
  partials _ := .value "x".toList none .nil
  outline := [.tag "if x".toList, .tag "include: p".toList, .tag "endif".toList, .plain ['!']]
  outlines _ := [.tag " x ".toList]
  legacy := []
  unreserved := by simp
  wording_page := by
    have hplain : Delimiters.braces.Plain ['!'] := by decide
    refine ⟨⟨by decide, ?_⟩, ⟨trivial, trivial⟩, trivial, hplain, trivial⟩
    rintro ⟨g, gap, path, g', -, -, -, -, -, h⟩
    have hmem : 'i' ∈ "x".toList := h ▸ by simp
    exact absurd hmem (by decide)
  wording_partials _ _ := ⟨⟨⟨⟨'x', [], rfl, by decide, .nil⟩, by decide⟩, by simp⟩, trivial⟩
  spelled_page :=
    .cons (.mark (by decide) ⟨rfl, rfl, by decide⟩)
      (.cons (.region ⟨_, rfl, by decide, rfl⟩)
        (.cons (.mark (by decide) ⟨rfl, rfl, by decide⟩) (.cons (.text _) .nil)))
  spelled_partials _ _ := .cons (.mark (by decide) rfl) .nil
  outside := ⟨trivial, trivial, trivial⟩

/-- The partial is rendered in the branch, or its source is. -/
theorem render_inlined_greeting :
    let e : Engine :=
      { sources := [("t", greeting.source), ("p", greeting.partialSource "p")],
        cacheEnabled := false }
    let inlined : Engine := { e with sources := [("u", greeting.inlined)] }
    (e.render ⟨[], [], none⟩ .memory [] "t" [("x", .str "a")]).outcome =
        (inlined.render ⟨[], [], none⟩ .memory [] "u" [("x", .str "a")]).outcome ∧
      (e.render ⟨[], [], none⟩ .memory [] "t" [("x", .str "a")]).outcome = .ok "a!".toList := by
  intro e inlined
  have hpartials : ∀ name ∈ greeting.page.contents,
      Loader.loadFirst ⟨[], [], none⟩ e.allLoaders name = .ok (greeting.partialSource name) := by
    intro name hname
    obtain rfl : name = "p" := by simpa [greeting, Doc.contents, Branches.contents] using hname
    rfl
  have hload : Loader.loadFirst ⟨[], [], none⟩ e.allLoaders "t" = .ok greeting.source := rfl
  have hload' : Loader.loadFirst ⟨[], [], none⟩ inlined.allLoaders "u" = .ok greeting.inlined := rfl
  exact render_inlined (e := e) Delimiters.apart_braces rfl rfl greeting (by decide) hload hpartials
    .memory [] ⟨⟨trivial, trivial, trivial⟩, fun _ _ => ⟨⟨['a'], rfl, by decide⟩, trivial⟩⟩
      (by decide)
    hload'

/-- A page whose text goes on behind an include tag, as it is and with the partial in the place of
the tag. -/
def doubling : Engine where
  delimiters := ⟨['\x7b', '\x7b'], ['\x7d', '\x7d'], by simp, by simp⟩
  sources :=
    [("t", "\x7b\x7binclude: p\x7d\x7d\x7binclude: q\x7d\x7d".toList),
      ("u", "\x7b\x7binclude: q\x7d\x7d".toList), ("p", ['\x7b']), ("q", ['Q'])]
  cacheEnabled := false

/-- If the left delimiter has two characters, a partial can end in one and the text behind its tag
can start with the other. A tag that they make is read in the source only. -/
theorem render_ne_inlined :
    let d := doubling.delimiters
    let page : Doc String := .region "p" (.text "\x7binclude: q\x7d\x7d".toList .nil)
    let outline := [.tag "include: p".toList, .plain "\x7binclude: q\x7d\x7d".toList]
    page.SpelledBy d (IsInclude d) outline ∧ ¬ d.left <:+: "\x7binclude: q\x7d\x7d".toList ∧
      Loader.loadFirst ⟨[], [], none⟩ doubling.allLoaders "t" = .ok (write d id outline) ∧
      Loader.loadFirst ⟨[], [], none⟩ doubling.allLoaders "p" = .ok ['\x7b'] ∧
      Loader.loadFirst ⟨[], [], none⟩ doubling.allLoaders "u" =
        .ok ((write d id outline).replaceTags d.includeTag fun _ => ['\x7b']) ∧
      (doubling.render ⟨[], [], none⟩ .memory [] "t" []).outcome =
        .ok "\x7b\x7binclude: q\x7d\x7d".toList ∧
      (doubling.render ⟨[], [], none⟩ .memory [] "u" []).outcome = .ok ['Q'] := by
  intro d page outline
  have hspelled : page.SpelledBy d (IsInclude d) outline :=
    .cons (.region ⟨_, rfl, by decide, rfl⟩) (.cons (.text _) .nil)
  have hinlined : (write d id outline).replaceTags d.includeTag (fun _ => ['\x7b']) =
      "\x7b\x7binclude: q\x7d\x7d".toList := by rfl
  refine ⟨hspelled, by decide +kernel, rfl, rfl, hinlined ▸ rfl, ?_, ?_⟩
  -- the brace that the partial brings is put into the page after its include tags have been read
  · have htag : Tag.scan d.includeTag "\x7b\x7binclude: p\x7d\x7d\x7binclude: q\x7d\x7d".toList =
        [⟨0, "\x7b\x7binclude: p\x7d\x7d".toList, "p", by decide⟩] := by rfl
    have hincluded : resolveConditionals d [] (doubling.substitution.apply ['\x7b'] []) =
        ['\x7b'] := by
      decide +kernel
    rw [outcome_uncached rfl _ _ (by decide)]
    refine (renderFresh_including rfl (by decide) rfl (by decide +kernel) htag rfl
      (by decide +kernel)
      (by decide +kernel) hincluded rfl (List.isEmpty_iff.mp (by decide +kernel))
      (List.isEmpty_iff.mp (by decide +kernel)) (List.isEmpty_iff.mp (by decide +kernel))
      (List.isEmpty_iff.mp (by decide +kernel))).trans (congrArg Except.ok ?_)
    decide +kernel
  · have htag : Tag.scan d.includeTag "\x7b\x7binclude: q\x7d\x7d".toList =
        [⟨0, "\x7b\x7binclude: q\x7d\x7d".toList, "q", by decide⟩] := by rfl
    have hincluded : resolveConditionals d [] (doubling.substitution.apply ['Q'] []) = ['Q'] := by
      decide +kernel
    rw [outcome_uncached rfl _ _ (by decide)]
    refine (renderFresh_including rfl (by decide) rfl (by decide +kernel) htag rfl
      (by decide +kernel)
      (by decide +kernel) hincluded rfl (List.isEmpty_iff.mp (by decide +kernel))
      (List.isEmpty_iff.mp (by decide +kernel)) (List.isEmpty_iff.mp (by decide +kernel))
      (List.isEmpty_iff.mp (by decide +kernel))).trans (congrArg Except.ok ?_)
    decide +kernel

end Engine

end Stencil
