import Stencil.Proofs.Composition.Twins
import Stencil.Proofs.Scoping.Source
import Stencil.Proofs.Tag.Unclosed

/-!
# Loops do not hide what is around them

A template that stands alone is put together from its source, its blocks in place and its regions
aside, and rendered in passes. What a tag in a loop shows is settled by where it is looked up: in
the context of the row, in those of the rows of the loops around it, and at last in that of the
document. The first of them that has a text for the tag puts it in its place; if there is none, the
tag stays as it is. So a name that has no text in a row may have one further out.
-/

namespace Stencil

open Recognizer Outline

namespace Engine

variable {σ : Type} {e : Engine} {disk : Disk} {ctx : Context} {fs : List Fragment}

/-- Composing a template that stands alone puts its regions aside and its blocks in place. -/
theorem compose_alone (hd : e.delimiters.Apart) (halone : Fragment.Alone e.delimiters fs)
    {name : String}
    (hload : Loader.loadFirst disk e.allLoaders name = .ok (Fragment.source e.delimiters fs))
    (fuel : Nat) :
    e.compose disk ctx (fuel + 1) [] [] name {} =
      (.ok (Blocks.resolve e.delimiters [] [] (write e.delimiters id (Fragment.outline fs))),
        ⟨Fragment.contents fs, [name]⟩) := by
  have htags : ∀ body, .tag body ∈ Fragment.outline fs → .piece (.tag body) ∈ fs := by
    intro body hbody
    exact Fragment.forall_mem_shelve (A := fun q => ∀ b, q = .tag b → .piece (.tag b) ∈ fs)
      (by simp) (by simp) (fun b hb b' heq => Piece.tag.inj heq ▸ hb) _ _ hbody body rfl
  have htidy := Fragment.tidy_shelve hd halone.sound
  rw [compose_source ctx hd id ProtectedRegions.placeholder (fun _ => rfl)
    (fun _ => rfl) halone.sound
    hload htidy fuel [] [] {} (by simp)]
  refine (congrArg (andThen · _)
    (insertAll_write _ (fun body hb => halone.include_ body (htags body hb)) _)).trans ?_
  exact finish_baseless hd fuel _ [] (htidy 0) (fun body hb => halone.base body (htags body hb)) _

/-- A render of a template that stands alone processes what it is composed to, and puts its regions
back. -/
theorem render_alone (hd : e.delimiters.Apart) (hcache : e.cacheEnabled = false)
    (halone : Fragment.Alone e.delimiters fs) (store : CacheStore σ) (s : σ) {name : String}
    (hname : name.toList.all isBlank = false) :
    ((e.withSource name (Fragment.source e.delimiters fs)).render disk store s name ctx).outcome =
      .ok (ProtectedRegions.restore (Fragment.contents fs) (e.process (e.effectiveContext ctx) true
        (Blocks.resolve e.delimiters [] [] (write e.delimiters id (Fragment.outline fs))))) := by
  have hload := loadFirst_withSource e disk name (Fragment.source e.delimiters fs) name
  rw [if_pos rfl] at hload
  obtain ⟨n, hn⟩ := (e.withSource name (Fragment.source e.delimiters fs)).exists_depthBound disk
  have hcompose := @compose_alone (e.withSource name (Fragment.source e.delimiters fs)) disk
    (e.effectiveContext ctx) fs hd halone name hload (n + 1)
  rw [outcome_uncached (e := e.withSource name (Fragment.source e.delimiters fs))
    hcache store s hname]
  exact congrArg Prod.fst (renderFresh_ok (hn ▸ hcompose))

/-- What is left of a template that stands alone when it has been rendered, its regions put back. -/
def rendering (e : Engine) (ctx : Context) (fs : List Fragment) : List (Piece Followed) :=
  (e.rendered ctx (Fragment.followed e.delimiters fs)).map (Piece.putBack (Fragment.contents fs))

/-- Beside placeholders, nothing that remains of a source that stands alone has an opener. -/
theorem opener_remains (halone : Fragment.Alone e.delimiters fs)
    (hregions : Fragment.contents fs ≠ [])
    (hclean : e.Clean (Fragment.Harmless e.delimiters fs) ctx (Fragment.followed e.delimiters fs))
    {q : Piece Followed}
    (hq : Remains (Fragment.Harmless e.delimiters fs) (Fragment.followed e.delimiters fs)
      (e.LooksUp ctx (Fragment.followed e.delimiters fs)) q) {r : Followed → Piece Text}
    (hr : Followed.Seen e.substitution (Fragment.Harmless e.delimiters fs) r) :
    (∃ n, q = .plain (.text (ProtectedRegions.placeholder n))) ∨
      ProtectedRegions.opener ∉ (q.bind r).text e.delimiters id := by
  have hsource : ∀ x ∈ Fragment.followed e.delimiters fs,
      (∃ n, x.bind (Followed.shown e.substitution) = .plain (ProtectedRegions.placeholder n)) ∨
        ProtectedRegions.opener ∉ (x.bind (Followed.shown e.substitution)).text e.delimiters id :=
    fun x hx => halone.opener_outline hregions _
      (Fragment.mem_outline_of_followed e.substitution hx)
  rcases q with ⟨s | ⟨body, trail⟩⟩ | body
  · have htext : (∃ n, Piece.plain s = .plain (ProtectedRegions.placeholder n)) ∨
        ProtectedRegions.opener ∉ s :=
      hq.elim (fun hmem => hsource _ hmem) fun ht => .inr (ht.2 hregions)
    refine htext.imp (Exists.imp fun n hn => by rw [Piece.plain.inj hn]) fun hs => ?_
    cases hr <;> exact hs
  · have htrail : e.LooksUp ctx (Fragment.followed e.delimiters fs) body trail := hq
    obtain ⟨hgood, -, -⟩ := hclean
    cases hr with
    | covered texts => exact .inr ((texts body).2 hregions)
    | shown =>
      rw [Piece.bind_plain, Followed.shown]
      cases hfound : trail.findSome? (e.substitution.put? body) with
      | none =>
        exact .inr ((hsource _ htrail.mem).resolve_left (by simp [Followed.shown]))
      | some t => exact .inr ((hgood body trail htrail t hfound).2 hregions)
  · exact .inr ((hsource _ hq).resolve_left (by simp))

/-- Regions are put back into what remains of a source piece by piece. -/
theorem restore_remains (halone : Fragment.Alone e.delimiters fs)
    (hclean : e.Clean (Fragment.Harmless e.delimiters fs) ctx (Fragment.followed e.delimiters fs))
    {qs : List (Piece Followed)}
    (hqs : ∀ q ∈ qs, Remains (Fragment.Harmless e.delimiters fs) (Fragment.followed e.delimiters fs)
      (e.LooksUp ctx (Fragment.followed e.delimiters fs)) q) {r : Followed → Piece Text}
    (hr : Followed.Seen e.substitution (Fragment.Harmless e.delimiters fs) r) :
    ProtectedRegions.restore (Fragment.contents fs)
      (write e.delimiters id (qs.map (Piece.bind r))) = write e.delimiters id
        ((qs.map (Piece.putBack (Fragment.contents fs))).map (Piece.bind r)) := by
  by_cases hregions : Fragment.contents fs = []
  · -- there is nothing to put back
    have hback : ∀ q : Piece Followed, q.putBack [] = q := by
      rintro (⟨_ | _⟩ | _) <;> rfl
    rw [hregions, List.map_congr_left fun q _ => hback q, List.map_id']
    rfl
  · have hopener := fun q hq => opener_remains halone hregions hclean (hqs q hq) hr
    have hflat : ∀ qs : List (Piece Followed), write e.delimiters id (qs.map (Piece.bind r)) =
        (qs.map fun q => (q.bind r).text e.delimiters id).flatten := by
      intro qs
      rw [write, List.flatMap_def, List.map_map]
      rfl
    rw [hflat, hflat, ProtectedRegions.restore_flatten halone.opener_contents,
      List.map_map, List.map_map]
    · refine congrArg List.flatten (List.map_congr_left fun q hq => ?_)
      have hq := hopener q hq
      rcases q with ⟨s | ⟨body, trail⟩⟩ | body
      · simp only [Function.comp_apply, Piece.putBack, Piece.bind_plain, hr.text]
        rfl
      · exact ProtectedRegions.restore_of_not_mem halone.opener_contents (hq.resolve_left (by simp))
      · exact ProtectedRegions.restore_of_not_mem halone.opener_contents (hq.resolve_left (by simp))
    · intro t ht
      obtain ⟨q, hq, rfl⟩ := List.mem_map.mp ht
      refine (hopener q hq).imp_left (Exists.imp fun n hn => ?_)
      rw [hn, Piece.bind_plain, hr.text]
      rfl

/-- What comes out of a template that stands alone, whichever way the tags of values in it are
seen. -/
theorem outcome_seen (hd : e.delimiters.Apart) (hcache : e.cacheEnabled = false)
    (hplugins : e.plugins = []) (halone : Fragment.Alone e.delimiters fs)
    (hclean : e.Clean (Fragment.Harmless e.delimiters fs) (e.effectiveContext ctx)
      (Fragment.followed e.delimiters fs)) (store : CacheStore σ) (s : σ) {name : String}
    (hname : name.toList.all isBlank = false) {r : Followed → Piece Text}
    (hr : Followed.Seen e.substitution (Fragment.Harmless e.delimiters fs) r) :
    ((e.withSource name (Fragment.source e.delimiters
      (fs.map (Fragment.seen e.delimiters (Fragment.closedPaths e.delimiters fs) r)))).render
        disk store s
        name ctx).outcome =
      .ok (write e.delimiters id
        ((e.rendering (e.effectiveContext ctx) fs).map (Piece.bind r))) := by
  have halone' : Fragment.Alone e.delimiters
      (fs.map (Fragment.seen e.delimiters (Fragment.closedPaths e.delimiters fs) r)) := by
    cases hr with
    | shown => rwa [Fragment.map_seen_shown]
    | covered texts => exact halone.covered hd texts
  have hfresh := Fragment.fresh_follow hd halone.sound
  have hplain : ∀ t, Fragment.Harmless e.delimiters fs t → e.delimiters.Plain t := fun _ ht => ht.1
  have houtline : Fragment.outline
      (fs.map (Fragment.seen e.delimiters (Fragment.closedPaths e.delimiters fs) r)) =
        ((Fragment.outline fs).map
          (Piece.follow e.delimiters (Fragment.closedPaths e.delimiters fs))).map (Piece.bind r) :=
    Fragment.shelve_seen hr.text 0
  have hresolve := resolve_unwrapped hd [] (fun q hq => (hfresh q hq).tidy hplain hr)
    fun p body hp hbody tags => by
      obtain ⟨v, hreads⟩ := (hfresh _ hp).reads hr hbody
      exact hreads.ignores_blocks hd tags
  have hprocess :=
    process_rendered hd hplugins hplain (Fragment.fresh_followed hd halone.sound) hclean hr
    true
  rw [render_alone hd hcache halone' store s hname, Fragment.contents_seen, houtline, hresolve]
  refine congrArg Except.ok ((congrArg _ hprocess).trans ?_)
  exact restore_remains halone hclean
    (remains_rendered hclean (Fragment.fresh_followed hd halone.sound)) hr

/-- **Tags in loops are looked up from the inside out**: in a template that stands alone, the tag of
a value shows what the first context on its trail has for it, and is left as it is if there is none.
Its trail are the contexts of the rows that are being rendered, and at last that of the document. It
comes out wherever a text in its place would. -/
theorem render_followed (hd : e.delimiters.Apart) (hcache : e.cacheEnabled = false)
    (hplugins : e.plugins = []) (halone : Fragment.Alone e.delimiters fs)
    (htame : e.Tame (Fragment.Harmless e.delimiters fs) (e.effectiveContext ctx)
      (Fragment.followed e.delimiters fs)) (store : CacheStore σ) (s : σ) {name : String}
    (hname : name.toList.all isBlank = false) :
    (∀ body trail, .plain (.tag body trail) ∈ e.rendering (e.effectiveContext ctx) fs →
      e.LooksUp (e.effectiveContext ctx) (Fragment.followed e.delimiters fs) body trail) ∧
    ((e.withSource name (Fragment.source e.delimiters fs)).render disk store s name ctx).outcome =
      .ok (write e.delimiters id ((e.rendering (e.effectiveContext ctx) fs).map
        (Piece.bind (Followed.shown e.substitution)))) ∧
    ∀ f, (∀ body, Fragment.Harmless e.delimiters fs (f body)) →
      ((e.withSource name
        (Fragment.source e.delimiters (Fragment.covered e.delimiters f fs))).render
        disk store s name ctx).outcome =
          .ok (write e.delimiters id ((e.rendering (e.effectiveContext ctx) fs).map
            (Piece.bind (Followed.covered f)))) := by
  refine ⟨fun body trail hmem => ?_, ?_, fun f hf => ?_⟩
  · obtain ⟨q, hq, heq⟩ := List.mem_map.mp hmem
    have hremains := remains_rendered htame.clean (Fragment.fresh_followed hd halone.sound) q hq
    rcases q with ⟨s | ⟨body', trail'⟩⟩ | body'
    · exact absurd heq (by simp [Piece.putBack])
    · obtain ⟨rfl, rfl⟩ : body' = body ∧ trail' = trail := by simpa [Piece.putBack] using heq
      exact hremains
    · exact absurd heq (by simp [Piece.putBack])
  · have houtcome :=
      @outcome_seen σ e disk ctx fs hd hcache hplugins halone htame.clean store s name hname _
      .shown
    rwa [Fragment.map_seen_shown] at houtcome
  · exact outcome_seen hd hcache hplugins halone htame.clean store s hname (.covered hf)

/-! ## A field that a row may not have -/

/-- The tags of a template that shows a field of every row. -/
def columnTags : List Text := ["row in rows", "row.x", "end rows"].map String.toList

/-- The source of the template. -/
def column : List Fragment := columnTags.map fun body => .piece (.tag body)

/-- What the template is composed to. -/
def columnPieces : List (Piece Followed) :=
  [.tag "row in rows".toList, .plain (.tag "row.x".toList []), .tag "end rows".toList]

theorem source_column : Fragment.source .braces column =
    "\x7brow in rows\x7d\x7brow.x\x7d\x7bend rows\x7d".toList := by decide

/-- The loop of the template. -/
def columnHead : LoopHead := ⟨.bound "row", "rows".toList⟩

theorem alone_column : Fragment.Alone .braces column := by
  have hmem : ∀ body, .piece (.tag body) ∈ column → body ∈ columnTags := by
    intro body hbody
    obtain ⟨body', hbody', heq⟩ := List.mem_map.mp hbody
    exact Piece.tag.inj (Fragment.piece.inj heq) ▸ hbody'
  have htags : ∀ body ∈ columnTags, Delimiters.braces.Free body ∧
      reading .braces Delimiters.braces.regionOpening body = none ∧
        reading .braces Delimiters.braces.includeTag body = none ∧
          reading .braces Delimiters.braces.baseTag body = none := by decide +kernel
  refine ⟨?_, fun body hbody => (htags body (hmem body hbody)).2.2.1,
    fun body hbody => (htags body (hmem body hbody)).2.2.2, by decide⟩
  refine @Fragment.sound_pieces .braces (columnTags.map .tag) (by simp) fun body hbody => ?_
  have hbody : body ∈ columnTags := by simpa using hbody
  exact ⟨(htags body hbody).1, (htags body hbody).2.1⟩

theorem followed_column : Fragment.followed .braces column = columnPieces := by
  have hclosed : Fragment.closedPaths .braces column = [] := by decide +kernel
  have hvalue : Delimiters.braces.IsValue [] "row.x".toList := by decide +kernel
  have hopening : ¬ Delimiters.braces.IsValue [] "row in rows".toList := by decide +kernel
  have hclosing : ¬ Delimiters.braces.IsValue [] "end rows".toList := by decide +kernel
  have hfollow : (Fragment.outline column).map (Piece.follow .braces []) = columnPieces := by
    simp only [column, columnTags, Fragment.outline, Fragment.shelve, List.map_cons, List.map_nil,
      Piece.follow, if_pos hvalue, if_neg hopening, if_neg hclosing, columnPieces]
  have hheads : ∀ body ∈ columnTags, (blockPairing .braces).heads body = [] := by decide +kernel
  have hsegments : segments (blockPairing .braces) columnPieces = columnPieces.map .piece := by
    refine segments_of_heads_nil fun body hbody => hheads body ?_
    have hbody : body = "row in rows".toList ∨ body = "end rows".toList := by
      simpa [columnPieces] using hbody
    rcases hbody with rfl | rfl <;> decide
  rw [Fragment.followed, hclosed, hfollow, unwrapped_eq, hsegments]
  rfl

theorem segments_column : segments (loopPairing .braces) columnPieces =
    [.pair columnHead "row in rows".toList [.plain (.tag "row.x".toList [])]
      "end rows".toList] := by
  have hheads : (loopPairing .braces).heads "row in rows".toList = [columnHead] := by rfl
  have hcloses : (loopPairing .braces).closes columnHead "end rows".toList =
      true := by decide +kernel
  have hopens : (loopPairing .braces).opens columnHead "end rows".toList =
      false := by decide +kernel
  have hpair : pairFrom (P := Followed) (loopPairing .braces) "row in rows".toList
      [.plain (.tag "row.x".toList []), .tag "end rows".toList] =
        some (columnHead, [.plain (.tag "row.x".toList [])], "end rows".toList, []) := by
    rw [pairFrom, hheads, List.findSome?_singleton, splitClose, splitClose_found hopens hcloses]
    rfl
  rw [columnPieces, segments_cons_some hpair, segments]

/-- An engine for the template. -/
def columnEngine : Engine := single []

/-- The context for a row. -/
def columnRow (ctx : Context) (x : Value × Nat) : Context :=
  Loop.rowContext columnHead.form ctx x.2 x.1

/-- Every row has the tag, looked up for the row and then outside. -/
theorem rendering_column (ctx : Context) :
    columnEngine.rendering ctx column = (Loop.rows ctx columnHead).zipIdx.map fun x =>
      .plain (.tag "row.x".toList [columnRow ctx x, ctx]) := by
  have hplain : ∀ {α : Type} (g : Pairing α) (ps : List (Piece Followed)),
      (∀ q ∈ ps, ∃ p, q = .plain p) → segments g ps = ps.map .piece := by
    intro α g ps hps
    refine segments_of_heads_nil fun body hbody => ?_
    obtain ⟨p, hp⟩ := hps _ hbody
    exact absurd hp (by simp)
  have hchosen : ∀ c (ps : List (Piece Followed)), (∀ q ∈ ps, ∃ p, q = .plain p) →
      chosen .braces c ps = ps := by
    intro c ps hps
    rw [chosen_eq, hplain _ ps hps, leave_pieces]
  have hinside : ∀ c, columnEngine.unrolled c [.plain (.tag "row.x".toList [])] =
      [.plain (.tag "row.x".toList [])] := by
    intro c
    rw [unrolled_eq, hplain _ _ (by simp), leave_pieces]
  have hunrolled : columnEngine.unrolled ctx columnPieces =
      (Loop.rows ctx columnHead).zipIdx.map fun x =>
        .plain (.tag "row.x".toList [columnRow ctx x]) := by
    have hsegments : segments (loopPairing columnEngine.delimiters) columnPieces = _ :=
      segments_column
    rw [unrolled_eq, hsegments, List.flatMap_singleton, Segment.leave, List.map_eq_flatMap]
    refine congrArg (List.flatMap · _) (funext fun x => ?_)
    dsimp only
    rw [hinside]
    exact congrArg _ (hchosen _ _ (by simp))
  have hfollowed : Fragment.followed columnEngine.delimiters column = columnPieces :=
    followed_column
  rw [rendering, rendered, hfollowed, hunrolled, List.map_map]
  refine (congrArg _ (hchosen _ _ fun q hq => ?_)).trans ?_
  · obtain ⟨x, -, rfl⟩ := List.mem_map.mp hq
    exact ⟨_, rfl⟩
  · rw [List.map_map]
    rfl

/-- The texts that are put into the template do no harm if they do none where they are looked up. -/
theorem tame_column {ctx : Context}
    (h : ∀ c ∈ ctx :: (Loop.rows ctx columnHead).zipIdx.map (columnRow ctx), ∀ body ∈ columnTags,
      ∀ t ∈ columnEngine.substitution.put? body c, Fragment.Harmless .braces column t) :
    columnEngine.Tame (Fragment.Harmless .braces column) ctx columnPieces := by
  have hbodies : ∀ body, .tag body ∈ columnPieces ∨ .plain (.tag body []) ∈ columnPieces →
      body ∈ columnTags := by
    intro body hbody
    have hbody : (body = "row in rows".toList ∨ body = "end rows".toList) ∨
        body = "row.x".toList := by
      simpa [columnPieces] using hbody
    rcases hbody with (rfl | rfl) | rfl <;> decide
  refine .of_pairs (fun body hbody => h ctx (.head _) body (hbodies body hbody))
    fun {head front inside back} hpair x hx => ?_
  have hpair' : Segment.pair head front inside back ∈ segments (loopPairing .braces) columnPieces :=
    hpair
  rw [segments_column] at hpair'
  obtain ⟨rfl, rfl, rfl, rfl⟩ := Segment.pair.inj (List.mem_singleton.mp hpair')
  have hrow : columnRow ctx x ∈ ctx :: (Loop.rows ctx columnHead).zipIdx.map (columnRow ctx) :=
    .tail _ (List.mem_map_of_mem hx)
  refine .of_pairs (fun body hbody => h _ hrow body ?_) fun {head front inside back} hpair => ?_
  · have hbody : body = "row.x".toList := by simpa using hbody
    rw [hbody]
    decide
  · rw [segments_of_heads_nil (by simp)] at hpair
    exact absurd hpair (by simp)

/-- Two rows, one with the field and one without. -/
def gapContext : Context := [("rows", .list [.object [("x", .str "a")], .object []])]

/-- A row without the field, and an object with the name that rows have. -/
def shadowContext : Context := [("rows", .list [.object []]), ("row", .object [("x", .int 5)])]

/-- Where there is no text for the field, its tag is left. -/
theorem render_followed_gap :
    ((columnEngine.withSource "t" "\x7brow in rows\x7d\x7brow.x\x7d\x7bend rows\x7d".toList).render
      ⟨[], [], none⟩ .memory [] "t" gapContext).outcome = .ok "a\x7brow.x\x7d".toList := by
  have htame : columnEngine.Tame (Fragment.Harmless .braces column) gapContext
      (Fragment.followed .braces column) := by
    rw [followed_column]
    exact tame_column (by decide +kernel)
  obtain ⟨-, houtcome, -⟩ := @render_followed _ columnEngine ⟨[], [], none⟩ gapContext column
    Delimiters.apart_braces rfl rfl alone_column htame .memory [] "t" (by decide)
  have heffective : columnEngine.effectiveContext gapContext = gapContext := rfl
  rw [heffective, rendering_column] at houtcome
  rw [← source_column]
  exact houtcome.trans (congrArg Except.ok (by decide +kernel))

/-- Where the only row has no text for the field, but there is one for the tag outside of the loop,
the tag is not left. -/
theorem render_shadowed :
    (Loop.rows shadowContext columnHead).zipIdx.map
        (fun x => (columnRow shadowContext x).resolve? "row.x".toList) = [none] ∧
    ((columnEngine.withSource "t" "\x7brow in rows\x7d\x7brow.x\x7d\x7bend rows\x7d".toList).render
      ⟨[], [], none⟩ .memory [] "t" shadowContext).outcome = .ok ['5'] := by
  have htame : columnEngine.Tame (Fragment.Harmless .braces column) shadowContext
      (Fragment.followed .braces column) := by
    rw [followed_column]
    exact tame_column (by decide +kernel)
  refine ⟨by rfl, ?_⟩
  have houtcome := @outcome_seen _ columnEngine ⟨[], [], none⟩ shadowContext column
    Delimiters.apart_braces rfl rfl alone_column htame.clean .memory [] "t" (by decide) _ .shown
  have heffective : columnEngine.effectiveContext shadowContext = shadowContext := rfl
  rw [heffective, rendering_column, Fragment.map_seen_shown] at houtcome
  rw [← source_column]
  exact houtcome.trans (congrArg Except.ok (by decide +kernel))

end Engine

end Stencil
