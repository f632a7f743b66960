import Stencil.Proofs.Scoping.Render
import Stencil.Proofs.Separators.Passes
import Stencil.Proofs.Tag.Untouched

/-!
# Templates with other separators in their paths

The parts of a path are separated by points or by arrows. In the tag of a value and in a condition
it is of no consequence which, and neither is it in the tags of a loop if both have the same. But
the tag of a value that has no text is left as it is spelled, and a closing tag with other
separators than the opening tag closes nothing.
-/

namespace Stencil

open Recognizer Outline Delimiters
open List (Forall₂)

variable {d : Delimiters} {legacy : List Text} {changed : Text → Prop}

/-! ## Two spellings of a template -/

/-- Two spellings of a piece of a template: the same text, or the tag of a value, given the paths at
which legacy loops are closed. Where the spellings differ, the tag is among those that may be
`changed`. -/
inductive Piece.Respelled (d : Delimiters) (legacy : List Text) (changed : Text → Prop) :
    Piece Text → Piece Text → Prop where
  /-- Text in which no tag starts. -/
  | text {s : Text} (plain : d.Plain s) : Respelled d legacy changed (.plain s) (.plain s)
  /-- The tag of a value: blanks, a path, and what follows. Neither spelling opens a loop. -/
  | value {g p p' rest : Text} {chain? : Option Text} (blank : Blank g)
      (free : d.Free (g ++ (p ++ rest)))
    (reads : reading d d.variableTag (g ++ (p ++ rest)) = some ⟨p, chain?⟩)
    (isValue : d.IsValue legacy (g ++ (p ++ rest))) (closed : chain? = none → p' ∉ legacy)
    (respelled : Path.Respelled p p') (same : p' = p ∨ changed (g ++ (p ++ rest))) :
    Respelled d legacy changed (.tag (g ++ (p ++ rest))) (.tag (g ++ (p' ++ rest)))

/-- Two spellings of a well-nested template. They may differ in the separators of paths: in the tags
of values, in the conditions of conditionals, and in both tags of a loop at once. -/
def Outline.SpelledAlike (d : Delimiters) (changed : Text → Prop) (ps qs : List (Piece Text)) :
    Prop :=
  Parallel d (Piece.Respelled d (readings d d.legacyClosing (ps ++ qs)) changed) LoopRespelled
    (ChoiceRespelled d (readings d d.legacyClosing (ps ++ qs))) false ps qs

namespace Delimiters

theorem IsValue.mono {legacy' : List Text} {body : Text} (h : d.IsValue legacy body)
    (hsub : ∀ p ∈ legacy', p ∈ legacy) : d.IsValue legacy' body :=
  ⟨h.1, h.2.imp fun _ hv => ⟨hv.1, hv.2.1, fun hchain hmem => hv.2.2 hchain (hsub _ hmem)⟩⟩

end Delimiters

namespace Piece.Respelled

variable {q q' : Piece Text}

/-- Both spellings of a tag are values with the same texts. -/
theorem follow {σ : Substitution} (hd : σ.delimiters.Apart)
    (h : Piece.Respelled σ.delimiters legacy changed q q') {legacy₁ legacy₂ : List Text}
    (h₁ : ∀ p ∈ legacy₁, p ∈ legacy) (h₂ : ∀ p ∈ legacy₂, p ∈ legacy) :
    Followed.Respelled σ changed (q.follow σ.delimiters legacy₁)
      (q'.follow σ.delimiters legacy₂) := by
  cases h with
  | text _ => exact .text _
  | @value g p p' rest chain? hg hb hreads hvalue hclosed hp hsame =>
    have hvalue' := isValue_respelled hd hb hg hp hreads hvalue hclosed
    rw [Piece.follow, Piece.follow, if_pos (hvalue.mono h₁), if_pos (hvalue'.mono h₂)]
    refine .tag [] (fun ctx => ?_) (hsame.imp_left fun heq => by rw [heq])
    rw [Substitution.put?, Substitution.put?, hreads, reading_value_respelled hd hb hg hp hreads]
    exact σ.text?_respelled hp chain? ctx

theorem silent (hd : d.Apart) (h : Piece.Respelled d legacy changed q q') :
    q.Silent d ∧ q'.Silent d := by
  cases h with
  | text hplain => exact ⟨hplain, hplain⟩
  | value hg hb hreads hvalue hclosed hp _ =>
    have hb' := free_respelled hd hp.isPath_right hb
    have hvalue' := isValue_respelled hd hb hg hp hreads hvalue hclosed
    obtain ⟨_, hreads⟩ := hvalue.reads hd hb
    obtain ⟨_, hreads'⟩ := hvalue'.reads hd hb'
    exact ⟨⟨hb, hreads.silent⟩, hb', hreads'.silent⟩

end Piece.Respelled

namespace Outline.SpelledAlike

variable {ps qs : List (Piece Text)}

/-- Neither spelling of a template has a part in composition. -/
theorem silent (hd : d.Apart) (h : SpelledAlike d changed ps qs) :
    (∀ q ∈ ps, q.Silent d) ∧ ∀ q ∈ qs, q.Silent d := by
  refine Parallel.forall_mem (fun hq => hq.silent hd) (fun hl => ?_) (fun hb => ?_) h
  · obtain ⟨form, p, p', -, huse, huse'⟩ := hl.use hd
    exact ⟨⟨⟨huse.free.1, huse.silent.1⟩, huse.free.2, huse.silent.2⟩,
      ⟨huse'.free.1, huse'.silent.1⟩, huse'.free.2, huse'.silent.2⟩
  · obtain ⟨_, _, _, _, _, hreads, hreads'⟩ := hb.reads hd
    exact ⟨⟨hreads.free, hreads.silent⟩, hreads'.free, hreads'.silent⟩

/-- The tags of a loop are not followed. -/
theorem follow_loop {head : LoopHead} {front back : Text} (h : LoopUse d head front back)
    (hback : .tag back ∈ ps) :
    (Piece.tag front).follow d (readings d d.legacyClosing ps) = .tag front ∧
      (Piece.tag back).follow d (readings d d.legacyClosing ps) = .tag back := by
  rw [Piece.follow, Piece.follow, if_neg, if_neg]
  · exact ⟨rfl, rfl⟩
  · rintro ⟨-, v, hv, hreserved, -⟩
    exact hreserved (h.back_value v hv)
  · rintro ⟨-, v, hv, -, hclosed⟩
    obtain ⟨hform, rfl⟩ := h.front_value v hv
    -- the path of a legacy loop is closed by its closing tag
    have htags := h.tags
    unfold LoopTags at htags
    rw [hform] at htags
    exact hclosed rfl (List.mem_flatMap.mpr ⟨_, hback, by simp [htags.2.legacyClosing]⟩)

/-- With the tags of values followed, the two spellings are spelled alike. -/
theorem followed {e : Engine} (hd : e.delimiters.Apart)
    (h : SpelledAlike e.delimiters changed ps qs) :
    e.Respelled (readings e.delimiters e.delimiters.legacyClosing (ps ++ qs)) changed false
      (ps.map (Piece.follow e.delimiters (readings e.delimiters e.delimiters.legacyClosing ps)))
      (qs.map (Piece.follow e.delimiters
        (readings e.delimiters e.delimiters.legacyClosing qs))) := by
  refine Parallel.map (fun hq => ?_) (fun hl hback hback' => ?_) (fun hb => ?_) h
    (fun _ => id) fun _ => id
  · exact hq.follow (σ := e.substitution) hd (fun p hp => by simp [hp]) fun p hp => by simp [hp]
  · obtain ⟨form, p, p', -, huse, huse'⟩ := hl.use hd
    exact ⟨follow_loop huse hback, follow_loop huse' hback'⟩
  · obtain ⟨_, _, _, _, _, hreads, hreads'⟩ := hb.reads hd
    rw [Piece.follow, Piece.follow, if_neg, if_neg]
    · exact ⟨rfl, rfl⟩
    · rintro ⟨hnone, -⟩
      exact absurd (hreads'.conditional.symm.trans hnone) (by simp)
    · rintro ⟨hnone, -⟩
      exact absurd (hreads.conditional.symm.trans hnone) (by simp)

end Outline.SpelledAlike

/-! ## Rendering -/

/-- Where there are no regions, what does no harm is text in which no tag starts. -/
theorem Fragment.harmless_pieces (ps : List (Piece Text)) :
    Harmless d (ps.map .piece) = d.Plain := by
  funext t
  simp [Harmless, contents_pieces]

namespace Engine

variable {σ : Type} {e : Engine} {disk : Disk} {ctx : Context} {ps qs : List (Piece Text)}

/-- A template with the tags of values followed. -/
def values (e : Engine) (ps : List (Piece Text)) : List (Piece Followed) :=
  ps.map (Piece.follow e.delimiters (readings e.delimiters e.delimiters.legacyClosing ps))

theorem fresh_values (hd : e.delimiters.Apart) (hps : ∀ q ∈ ps, q.Silent e.delimiters) :
    ∀ q ∈ e.values ps, q.Fresh e.delimiters
      (readings e.delimiters e.delimiters.legacyClosing ps) := by
  have hfresh := Fragment.fresh_followed hd (Fragment.alone_pieces hps).sound
  have houtline : Fragment.outline (ps.map .piece) = ps := Fragment.shelve_pieces _ _ ps
  rwa [Fragment.followed_pieces hps, Fragment.closedPaths, houtline] at hfresh

/-- What comes out of a template that has no part in composition. -/
theorem outcome_pieces (hd : e.delimiters.Apart) (hcache : e.cacheEnabled = false)
    (hplugins : e.plugins = []) (hps : ∀ q ∈ ps, q.Silent e.delimiters)
    (hclean : e.Clean e.delimiters.Plain (e.effectiveContext ctx) (e.values ps))
    (store : CacheStore σ) (s : σ) {name : String} (hname : name.toList.all isBlank = false) :
    ((e.withSource name (write e.delimiters id ps)).render disk store s name ctx).outcome =
      .ok (write e.delimiters id ((e.rendered (e.effectiveContext ctx) (e.values ps)).map
        (Piece.bind (Followed.shown e.substitution)))) := by
  have hfollowed : Fragment.followed e.delimiters (ps.map .piece) = e.values ps :=
    Fragment.followed_pieces hps
  have houtcome := @outcome_seen σ e disk ctx (ps.map .piece) hd hcache hplugins
      (Fragment.alone_pieces hps)
    (by rwa [hfollowed, Fragment.harmless_pieces]) store s name hname _ .shown
  rw [Fragment.map_seen_shown, Fragment.source_pieces, rendering, hfollowed,
    Fragment.contents_pieces, List.map_map] at houtcome
  refine houtcome.trans (congrArg _ (congrArg _ ?_))
  refine List.map_congr_left fun q _ => ?_
  rcases q with ⟨_ | _⟩ | _ <;> rfl

/-- Nothing comes out of a loop over no rows. -/
theorem outcome_rowless (hd : e.delimiters.Apart) (hcache : e.cacheEnabled = false)
    (hplugins : e.plugins = []) {head : LoopHead} {front back : Text}
    (huse : LoopUse e.delimiters head front back) {text : Text} (htext : e.delimiters.Plain text)
    (hrows : Loop.rows (e.effectiveContext ctx) head = []) (store : CacheStore σ) (s : σ)
    {name : String} (hname : name.toList.all isBlank = false) :
    ((e.withSource name (write e.delimiters id [.tag front, .plain text, .tag back])).render
      disk store s name
      ctx).outcome = .ok [] := by
  let ps : List (Piece Text) := [.tag front, .plain text, .tag back]
  have hsilent : ∀ q ∈ ps, q.Silent e.delimiters := by
    refine List.forall_mem_cons.mpr ⟨⟨huse.free.1, huse.silent.1⟩,
      List.forall_mem_cons.mpr ⟨htext, ?_⟩⟩
    exact List.forall_mem_singleton.mpr ⟨huse.free.2, huse.silent.2⟩
  have hvalues : e.values ps = .tag front :: ([.plain (.text text)] ++ [.tag back]) := by
    obtain ⟨hfront, hback⟩ := SpelledAlike.follow_loop huse (show Piece.tag back ∈ ps by simp [ps])
    rw [values, List.map_cons, List.map_cons, List.map_singleton, hfront, hback]
    rfl
  have hclosed : ClosedAt e.delimiters (readings e.delimiters e.delimiters.legacyClosing ps)
      (e.values ps) :=
    fun back hback => (fresh_values hd hsilent _ hback).2
  rw [hvalues] at hclosed
  have hinside : e.LoopNested (readings e.delimiters e.delimiters.legacyClosing ps)
      [.plain (.text text)] _ :=
    .plain _ .nil
  have hunrolled : e.unrolled (e.effectiveContext ctx) (e.values ps) = [] := by
    rw [hvalues]
    refine (unrolled_loop _ hinside .nil huse.tags hclosed).trans ?_
    rw [hrows, unrolled_nil]
    rfl
  have hclean : e.Clean e.delimiters.Plain (e.effectiveContext ctx) (e.values ps) := by
    refine .of_pairs (fun body trail hup => ?_) (fun body hbody => ?_)
      fun {head' front' us back'} hpair x hx => ?_
    · exact absurd hup.mem (by simp [hvalues])
    · exact absurd hbody (by simp [hunrolled])
    · rw [hvalues,
        (LoopNested.loop hinside .nil huse.tags (hclosed _ (by simp))).segments_eq hclosed] at hpair
      obtain ⟨rfl, -⟩ := Segment.pair.inj (List.mem_singleton.mp hpair)
      exact absurd hx (by simp [hrows])
  rw [outcome_pieces hd hcache hplugins hsilent hclean store s hname, rendered,
    hunrolled, List.map_nil, chosen_eq, segments]
  rfl

/-- **The separators of paths do not matter**: two spellings of a well-nested template, which differ
in the separators of paths only, render to the same text. Where the tag of a value is looked up, the
text that is put in its place must start no tag; and if the tag is spelled in two ways, there must
be such a text. -/
theorem render_respelled (hd : e.delimiters.Apart) (hcache : e.cacheEnabled = false)
    (hplugins : e.plugins = []) (h : SpelledAlike e.delimiters changed ps qs)
    (hfound : ∀ body trail, e.LooksUp (e.effectiveContext ctx) (e.values ps) body trail →
      (∀ t ∈ trail.findSome? (e.substitution.put? body), e.delimiters.Plain t) ∧
        (changed body → (trail.findSome? (e.substitution.put? body)).isSome))
    (store : CacheStore σ) (s : σ) {name : String} (hname : name.toList.all isBlank = false) :
    ∃ t, ((e.withSource name (write e.delimiters id ps)).render disk store s name ctx).outcome =
      .ok t ∧
      ((e.withSource name (write e.delimiters id qs)).render disk store s name ctx).outcome =
        .ok t := by
  obtain ⟨hsilent, hsilent'⟩ := h.silent hd
  have hfresh := fresh_values hd hsilent
  have hfresh' := fresh_values hd hsilent'
  have hvalues : e.Respelled _ changed false (e.values ps) (e.values qs) := h.followed hd
  have hclosed : ClosedAt e.delimiters (readings e.delimiters e.delimiters.legacyClosing (ps ++ qs))
      (e.values ps) := fun back hback path hpath => by simp [(hfresh _ hback).2 path hpath]
  have hclosed' : ClosedAt e.delimiters
      (readings e.delimiters e.delimiters.legacyClosing (ps ++ qs))
      (e.values qs) := fun back hback path hpath => by simp [(hfresh' _ hback).2 path hpath]
  obtain ⟨hclean, hclean'⟩ := clean_respelled hd hvalues hclosed hclosed' fun body trail hup =>
    (hfound body trail hup).1
  refine ⟨_, outcome_pieces hd hcache hplugins hsilent hclean store s hname, ?_⟩
  rw [outcome_pieces hd hcache hplugins hsilent' hclean' store s hname]
  -- followed tags are left in pairs, and either both have the same text or they are the same tag
  have hpairs := (List.forall₂_and_left _ _).mpr
    ⟨remains_rendered hclean hfresh, forall₂_rendered hd hvalues hclosed hclosed' _⟩
  refine congrArg _ (congrArg _ (List.forall₂_eq_eq_eq ▸ ?_))
  rw [List.forall₂_map_left_iff, List.forall₂_map_right_iff]
  refine hpairs.flip.imp fun q' q hq => ?_
  obtain ⟨hremains, hq⟩ := hq
  cases hq with
  | text s => rfl
  | @tag body body' trail put same =>
    have htext := (hfound body trail hremains).2
    rw [Piece.bind_plain, Piece.bind_plain, Followed.shown, Followed.shown, ← funext put]
    cases htrail : trail.findSome? (e.substitution.put? body) with
    | some t => rfl
    | none =>
      rw [htrail] at htext
      rw [same.resolve_right fun hchanged => absurd (htext hchanged) (by simp)]

/-- An empty list at a path. -/
def listContext : Context := [("a", .object [("b", .list [])])]

theorem isPath_listPath : IsPath "a.b".toList :=
  ⟨'a', ".b".toList, rfl, by decide, .step ⟨'b', by decide, .inr (.inl rfl)⟩ .nil⟩

/-- How the tags of a loop with a short name are spelled. -/
theorem loopFrame_row : LoopFrame (.bound (String.ofList ['r']))
    (fun p => [] ++ (['r'] ++ ([' '] ++ ("in".toList ++ ([' '] ++ (p ++ []))))))
    (fun p => [] ++ ("end".toList ++ ([' '] ++ (p ++ [])))) :=
  .bound ⟨'r', [], rfl, by decide, by simp⟩ (by simp [blank_space]) (by simp [blank_nil])

/-- A loop over the list. -/
def listHead : LoopHead := ⟨.bound "r", "a.b".toList⟩

theorem loopUse_row : LoopUse .braces listHead "r in a.b".toList "end a.b".toList :=
  loopFrame_row.use Delimiters.apart_braces isPath_listPath (by simp)

/-- A loop with a closing tag whose path has another separator. -/
def crossed : Text := "\x7br in a.b\x7dx\x7bend a->b\x7d".toList

theorem unclosed_crossed : Loop.Unclosed .braces crossed := by
  have hbound : ∀ t ∈ Tag.scan Delimiters.braces.loopOpening crossed,
      ∀ c ∈ Tag.scanFrom Delimiters.braces.loopClosing t.stop 0 (crossed.drop t.stop),
        c.content ≠ t.content.path := by
    decide +kernel
  have hlegacy : ∀ t ∈ Tag.scan Delimiters.braces.legacyOpening crossed,
      ∀ c ∈ Tag.scanFrom Delimiters.braces.legacyClosing t.stop 0 (crossed.drop t.stop),
        c.content ≠ t.content.path := by
    decide +kernel
  exact ⟨fun t ht => Tag.not_closed_of_forall (hbound t ht),
    fun t ht => Tag.not_closed_of_forall (hlegacy t ht)⟩

/-- Separators show where a path leads to a list: its tag has no text, and is left as it is spelled.
And a tag closes no loop whose path has other separators. -/
theorem render_shows_separators :
    let render (source : Text) :=
      (((single []).withSource "t" source).render ⟨[], [], none⟩ .memory [] "t" listContext).outcome
    (listContext.resolve? "a.b".toList = some (.list []) ∧
      listContext.resolve? "a->b".toList = some (.list [])) ∧
      (∀ source ∈ ["\x7ba.b\x7d".toList, "\x7ba->b\x7d".toList], render source = .ok source) ∧
        render "\x7br in a.b\x7dx\x7bend a.b\x7d".toList = .ok [] ∧
          render "\x7br in a.b\x7dx\x7bend a->b\x7d".toList =
            .ok "\x7br in a.b\x7dx\x7bend a->b\x7d".toList := by
  intro render
  refine ⟨⟨by rfl, by rfl⟩, fun source hsource => ?_, ?_, ?_⟩
  · dsimp only [render]
    rw [outcome_uncached rfl _ _ (by decide)]
    refine renderFresh_flat rfl rfl ?_ ?_ <;> (revert source; decide +kernel)
  · exact @outcome_rowless _ (single []) ⟨[], [], none⟩ listContext Delimiters.apart_braces
      rfl rfl _ _ _
      loopUse_row "x".toList (by decide) (by rfl) .memory [] "t" (by decide)
  · have hloops := expandLoops_loopless unclosed_crossed.outermost_eq_nil
        (single []).renderBody listContext
    have houtput : resolveConditionals .braces listContext
        ((single []).substitution.apply crossed listContext) = crossed := by decide +kernel
    dsimp only [render]
    rw [outcome_uncached rfl _ _ (by decide), renderFresh_blockless rfl
      (ProtectedRegions.extract_unprotected (List.isEmpty_iff.mp (by decide +kernel)) [])
      (List.isEmpty_iff.mp (by decide +kernel)) (List.isEmpty_iff.mp (by decide +kernel))
      (List.isEmpty_iff.mp (by decide +kernel)), process_eq rfl]
    refine congrArg Except.ok (Eq.trans ?_ houtput)
    rw [← hloops]
    rfl

/-! ## A path in every kind of tag -/

/-- The tags of a template with a path in every kind of tag. -/
def pointTags : List Text := ["r in a.b", "if r.x", "r.x", "endif", "end a.b"].map String.toList

/-- The same with other separators. -/
def arrowTags : List Text := ["r in a->b", "if r->x", "r->x", "endif", "end a->b"].map String.toList

theorem respelled_row : Path.Respelled "r.x".toList "r->x".toList :=
  ⟨⟨'r', ".x".toList, rfl, by decide, .step ⟨'x', by decide, .inr (.inl rfl)⟩ .nil⟩, by decide⟩

theorem reads_if : Delimiters.braces.Reads [] "if r.x".toList
    { conditional? := some (.opening "r.x".toList) } :=
  reads_conditionalTag Delimiters.apart_braces (by simp) (by decide) (by rfl) (by decide +kernel)
    (by decide +kernel)

theorem reads_endif : Delimiters.braces.Reads [] "endif".toList { conditional? := some .closing } :=
  reads_conditionalTag Delimiters.apart_braces (by simp) (by decide) (by rfl) (by decide +kernel)
    (by decide +kernel)

/-- The two templates are spelled alike, and the tag of the value is spelled in two ways. -/
theorem spelledAlike_arrows :
    SpelledAlike .braces (· = "r.x".toList) (pointTags.map .tag) (arrowTags.map .tag) := by
  have hlegacy : readings (P := Text) .braces Delimiters.braces.legacyClosing
      (pointTags.map .tag ++ arrowTags.map .tag) = [] := by decide +kernel
  have hloop : LoopRespelled "r in a.b".toList "end a.b".toList "r in a->b".toList
      "end a->b".toList :=
    @LoopRespelled.of_frame _ _ _ "a.b".toList "a->b".toList loopFrame_row
      ⟨isPath_listPath, by decide⟩
      (by simp)
  have hif : ChoiceRespelled .braces [] "if r.x".toList "if r->x".toList :=
    @ChoiceRespelled.of_condition .braces [] [] "if".toList [' '] "r.x".toList
      "r->x".toList [] (by decide)
      blank_nil blank_space blank_nil (by decide) (by decide) (by decide)
      (by decide) reads_if
      (@Condition.Respelled.path _ _ [] [] respelled_row (by decide) (.same []))
  have hendif : ChoiceRespelled .braces [] "endif".toList "endif".toList :=
    @ChoiceRespelled.of_condition .braces [] [] "endif".toList [] [] [] [] (by decide) blank_nil
      blank_nil blank_nil (by decide) (by decide) (by decide) (by decide) reads_endif
      (.same [])
  have hvalue : Piece.Respelled .braces [] (· = "r.x".toList) (.tag "r.x".toList)
      (.tag "r->x".toList) :=
    @Piece.Respelled.value .braces [] _ [] "r.x".toList "r->x".toList [] none blank_nil (by decide)
      (by rfl) (by decide +kernel) (by simp) respelled_row (.inr rfl)
  have hwithin : Parallel .braces _ LoopRespelled (ChoiceRespelled .braces []) false _ _ :=
    .choice hif reads_if.conditional hendif reads_endif.conditional (.leaf hvalue .nil) .nil
  rw [SpelledAlike, hlegacy]
  exact Parallel.loop hloop hwithin .nil

/-- What is in the loop, with the tag of the value followed. -/
def pointInside : List (Piece Followed) :=
  [.tag "if r.x".toList, .plain (.tag "r.x".toList []), .tag "endif".toList]

theorem values_points : (single []).values (pointTags.map .tag) =
    .tag "r in a.b".toList :: (pointInside ++ [.tag "end a.b".toList]) := by
  have hbraces : (single []).delimiters = .braces := rfl
  have hclosed : readings (P := Text) .braces Delimiters.braces.legacyClosing (pointTags.map .tag) =
      [] := by
    decide +kernel
  have hvalue : Delimiters.braces.IsValue [] "r.x".toList := by decide +kernel
  have hopening : ¬ Delimiters.braces.IsValue [] "r in a.b".toList := by decide +kernel
  have hclosing : ¬ Delimiters.braces.IsValue [] "end a.b".toList := by decide +kernel
  have hif : ¬ Delimiters.braces.IsValue [] "if r.x".toList := by decide +kernel
  have hendif : ¬ Delimiters.braces.IsValue [] "endif".toList := by decide +kernel
  rw [values, hbraces, hclosed]
  simp only [pointTags, pointInside, List.map_cons, List.map_nil, Piece.follow, if_pos hvalue,
    if_neg hopening, if_neg hclosing, if_neg hif, if_neg hendif, List.cons_append, List.nil_append]

/-- The tag of the value is looked up in the rows of the loop. -/
theorem looksUp_points {ctx : Context} {body : Text} {trail : List Context}
    (h : (single []).LooksUp ctx ((single []).values (pointTags.map .tag)) body trail) :
    body = "r.x".toList ∧ ∃ x ∈ (Loop.rows ctx listHead).zipIdx,
      trail = [Loop.rowContext listHead.form ctx x.2 x.1, ctx] := by
  have hclosed : ClosedAt .braces []
      (.tag "r in a.b".toList :: (pointInside ++ [.tag "end a.b".toList])) := by
    have hnone : ∀ back ∈ ["r in a.b", "if r.x", "endif", "end a.b"].map String.toList,
        reading .braces Delimiters.braces.legacyClosing back = none := by decide +kernel
    intro back hback path hpath
    rw [hnone back (by simpa [pointInside] using hback)] at hpath
    exact absurd hpath (by simp)
  have hinside : (single []).LoopNested [] pointInside (pointInside.map .piece) :=
    LoopNested.idle (.plain _ (LoopNested.idle .nil (reads_endif.idle rfl rfl rfl rfl)))
      (reads_if.idle rfl rfl rfl rfl)
  have hsegments : segments (loopPairing (single []).delimiters) _ = _ :=
    (hinside.loop .nil loopUse_row.tags (hclosed _ (by simp))).segments_eq hclosed
  have hpieces := hinside.segments_eq fun back hback => hclosed back (by simp [hback])
  rw [values_points] at h
  cases h with
  | here mem =>
    rw [hsegments] at mem
    exact absurd mem (by simp)
  | row pair mem looksUp =>
    rw [hsegments] at pair
    obtain ⟨rfl, rfl, rfl, rfl⟩ := Segment.pair.inj (List.mem_singleton.mp pair)
    have hbody := looksUp.mem
    cases looksUp with
    | here _ => exact ⟨by simpa [pointInside] using hbody, _, mem, rfl⟩
    | row pair =>
      rw [hpieces] at pair
      exact absurd pair (by simp)

/-- A context with two rows. -/
def pointContext : Context :=
  [("a", .object [("b", .list [.object [("x", .str "s")], .object [("x", .int 1)]])])]

/-- With arrows for all points, the template renders to the same text. -/
theorem render_respelled_arrows :
    let render (source : String) :=
      (((single []).withSource "t" source.toList).render
      ⟨[], [], none⟩ .memory [] "t" pointContext).outcome
    ∃ t, render "\x7br in a.b\x7d\x7bif r.x\x7d\x7br.x\x7d\x7bendif\x7d\x7bend a.b\x7d" = .ok t ∧
      render "\x7br in a->b\x7d\x7bif r->x\x7d\x7br->x\x7d\x7bendif\x7d\x7bend a->b\x7d" =
      .ok t := by
  have htexts : ∀ x ∈ (Loop.rows pointContext listHead).zipIdx,
      ∃ t ∈ (single []).substitution.put? "r.x".toList
        (Loop.rowContext listHead.form pointContext x.2 x.1),
        Delimiters.braces.Plain t := by decide +kernel
  refine @render_respelled _ _ (single []) ⟨[], [], none⟩ pointContext (pointTags.map .tag)
    (arrowTags.map .tag) Delimiters.apart_braces rfl rfl spelledAlike_arrows
    (fun body trail hup => ?_)
    .memory [] "t" (by decide)
  have heffective : (single []).effectiveContext pointContext = pointContext := rfl
  rw [heffective] at hup
  obtain ⟨rfl, x, hx, rfl⟩ := looksUp_points hup
  obtain ⟨t, ht, hplain⟩ := htexts x hx
  rw [List.findSome?_cons, Option.mem_def.mp ht]
  exact ⟨fun t' ht' => Option.some.inj ht' ▸ hplain, fun _ => rfl⟩

end Engine

end Stencil
