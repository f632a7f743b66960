import Stencil.Proofs.Composition.Capacity
import Stencil.Proofs.Composition.Declarations
import Stencil.Proofs.Composition.Sources
import Stencil.Proofs.Tag.Unclosed

/-!
# Templates that extend each other

A template that extends another goes around it: what it has outside its blocks stays, and its base
goes where its base tag stands. The blocks of the last template of such a row, which extends none,
are replaced by their definitions: under every name the first of the most derived template that
defines it.
-/

namespace Stencil

open Recognizer

namespace Outline

variable {d : Delimiters}

/-- An outline with balanced blocks, and base tags outside them, that neither includes nor protects
anything. -/
structure Standalone (d : Delimiters) (ps : List (Piece Text)) : Prop where
  /-- No tag starts in the text, and no delimiter is in a tag. -/
  tidy : Tidy d id ps
  /-- Blocks balance, and base tags stand outside. -/
  nested : Nested d 0 ps
  /-- Nothing is included. -/
  includes : ∀ body, .tag body ∈ ps → reading d d.includeTag body = none
  /-- Nothing is protected. -/
  regions : ∀ body, .tag body ∈ ps → reading d d.regionOpening body = none

/-- A piece, with a text in the place of a base tag. -/
def filled (d : Delimiters) (base : Text) : Piece Text → Text
  | .plain s => s
  | .tag body => if (reading d d.baseTag body).isSome then base else d.enclose body

/-- What is left of a template when its blocks are removed, around its base. -/
def around (d : Delimiters) (ps : List (Piece Text)) (base : Text) : Text :=
  (unblocked d ps).flatMap (filled d base)

theorem filled_of_readings_nil {ps : List (Piece Text)} (h : readings d d.baseTag ps = [])
    (base : Text) : ps.flatMap (filled d base) = write d id ps := by
  induction ps with
  | nil => rfl
  | cons q ps ih =>
    cases q with
    | plain s =>
      rw [List.flatMap_cons, ih h, write_cons]
      rfl
    | tag body =>
      rw [readings_tag, List.append_eq_nil_iff] at h
      have hnone : reading d d.baseTag body = none := by simpa using h.1
      rw [List.flatMap_cons, ih h.2, write_cons, filled, hnone]
      rfl

/-- A base is put where the only base tag stands. -/
theorem withBase_eq_filled {ps : List (Piece Text)} {name : String}
    (h : readings d d.baseTag ps = [name]) (base : Text) :
    Engine.withBase d id ps base = ps.flatMap (filled d base) := by
  unfold Engine.withBase
  cases hfirst : firstTag d d.baseTag ps with
  | none => exact absurd (h.symm.trans (firstTag_eq_none hfirst)) (by simp)
  | some x =>
    obtain ⟨front, name', body, back⟩ := x
    obtain ⟨rfl, hread⟩ := firstTag_eq_some hfirst
    have hparts := (readings_firstTag hfirst).symm.trans h
    rw [List.append_eq_singleton_iff] at hparts
    obtain ⟨hfront, hback⟩ : readings d d.baseTag front = [] ∧ readings d d.baseTag back = [] := by
      rcases hparts with ⟨hf, hb⟩ | ⟨-, hb⟩
      · exact ⟨hf, (List.cons.inj hb).2⟩
      · exact absurd hb (by simp)
    rw [List.flatMap_append, List.flatMap_cons, filled_of_readings_nil hfront,
      filled_of_readings_nil hback, filled, hread]
    rfl

/-- No base tag is removed with the blocks. -/
theorem readings_unblocked (hd : d.Apart) {ps : List (Piece Text)} (hps : Tidy d id ps)
    (h : Nested d 0 ps) : readings d d.baseTag (unblocked d ps) = readings d d.baseTag ps := by
  unfold unblocked
  fun_induction segments (blockPairing d) ps with
  | case1 => rfl
  | case2 p ps ih =>
    cases h with
    | plain rest => exact ih hps.tail rest
  | case3 body ps hnone ih =>
    have hrest : Nested d 0 ps := by
      cases h with
      | opening reads rest =>
        obtain ⟨inside, back, tail, hsome⟩ := rest.pairFrom_opening hd hps.tail reads
        rw [hnone] at hsome
        exact absurd hsome (by simp)
      | base reads rest => exact rest
      | other loose reads rest => exact rest
    rw [List.flatMap_cons, readings_append, ih hps.tail hrest, readings_tag]
    simp
  | case4 body ps name inside back rest hsome hlt ih =>
    obtain ⟨hopen, hclose, -, hinside, hrest⟩ := h.of_pairFrom hd hps hsome
    have hb := pairFrom_eq hsome
    subst hb
    obtain ⟨-, hpsRest⟩ := tidy_append.mp hps.tail
    rw [List.flatMap_cons, readings_append, ih hpsRest.tail hrest, readings_tag, readings_append,
      readings_tag, hinside, Delimiters.not_base_of_blockOpening hd hps.head hopen,
      Delimiters.not_base_of_blockClosing hd hpsRest.head hclose]
    rfl

theorem firstTag_of_readings_nil {ps : List (Piece Text)} (h : readings d d.baseTag ps = []) :
    firstTag d d.baseTag ps = none := by
  cases hfirst : firstTag d d.baseTag ps with
  | none => rfl
  | some x =>
    obtain ⟨front, name, body, back⟩ := x
    rw [readings_firstTag hfirst] at h
    exact absurd h (by simp)

theorem firstTag_of_readings_singleton {ps : List (Piece Text)} {name : String}
    (h : readings d d.baseTag ps = [name]) :
    ∃ front body back, firstTag d d.baseTag ps = some (front, name, body, back) := by
  cases hfirst : firstTag d d.baseTag ps with
  | none => exact absurd (h.symm.trans (firstTag_eq_none hfirst)) (by simp)
  | some x =>
    obtain ⟨front, name', body, back⟩ := x
    rw [readings_firstTag hfirst] at h
    have hmem : name' ∈ [name] := h ▸ by simp
    obtain rfl := List.mem_singleton.mp hmem
    exact ⟨front, body, back, rfl⟩

end Outline

open Outline

/-- A template by its name, with the outline of its source. -/
abbrev NamedOutline := String × List (Piece Text)

/-- What a row of templates, each of which extends the next, is composed to, given the definitions
of blocks in front. -/
def composed (d : Delimiters) : Blocks → List NamedOutline → Text
  | _, [] => []
  | definitions, [t] => definitions.resolve d [] (write d id t.2)
  | definitions, t :: ts => around d t.2 (composed d (definitions ++ declarations d id t.2) ts)

theorem composed_congr (d : Delimiters) {definitions definitions' : Blocks}
    (h : ∀ name, definitions.get? name = definitions'.get? name) (ts : List NamedOutline) :
    composed d definitions ts = composed d definitions' ts := by
  fun_induction composed d definitions ts generalizing definitions' with
  | case1 => rfl
  | case2 definitions t => exact resolve_congr h [] _
  | case3 definitions t ts hne ih =>
    rw [composed.eq_3 _ _ _ _ hne]
    refine congrArg (around d t.2) (ih fun name => ?_)
    rw [Dict.get?_append, Dict.get?_append, h]

/-- All at once: every template but the last goes around the next, and the last has its blocks
replaced by the first definitions of all. -/
theorem composed_eq_foldr (d : Delimiters) (definitions : Blocks) (derived : List NamedOutline)
    (root : NamedOutline) :
    composed d definitions (derived ++ [root]) =
      derived.foldr (fun t base => around d t.2 base)
        (Blocks.resolve d (definitions ++ derived.flatMap fun t => declarations d id t.2) []
          (write d id root.2)) := by
  induction derived generalizing definitions with
  | nil => simp [composed]
  | cons t derived ih =>
    rw [List.cons_append, composed.eq_3 _ _ _ _ (by simp), ih, List.foldr_cons, List.flatMap_cons,
      List.append_assoc]

namespace Engine

variable {e : Engine} {disk : Disk} {ctx : Context}

/-- A row of templates, each of which extends the next, while the last extends none. -/
inductive Lineage (e : Engine) (disk : Disk) : List NamedOutline → Prop where
  /-- A template that extends none. -/
  | root {name : String} {ps : List (Piece Text)}
    (loads : Loader.loadFirst disk e.allLoaders name = .ok (write e.delimiters id ps))
    (standalone : Standalone e.delimiters ps)
    (base : readings e.delimiters e.delimiters.baseTag ps = []) : Lineage e disk [(name, ps)]
  /-- A template that extends the first of a row. -/
  | derived {name next : String} {ps qs : List (Piece Text)} {ts : List NamedOutline}
    (loads : Loader.loadFirst disk e.allLoaders name = .ok (write e.delimiters id ps))
    (standalone : Standalone e.delimiters ps)
    (base : readings e.delimiters e.delimiters.baseTag ps = [next])
    (above : Lineage e disk ((next, qs) :: ts)) : Lineage e disk ((name, ps) :: (next, qs) :: ts)

theorem Lineage.head {name : String} {ps : List (Piece Text)} {ts : List NamedOutline}
    (h : e.Lineage disk ((name, ps) :: ts)) :
    Loader.loadFirst disk e.allLoaders name = .ok (write e.delimiters id ps) ∧
      Standalone e.delimiters ps := by
  cases h with
  | root loads standalone base => exact ⟨loads, standalone⟩
  | derived loads standalone base above => exact ⟨loads, standalone⟩

/-- Composing a template that neither includes nor protects anything. -/
theorem compose_standalone (hd : e.delimiters.Apart) {name : String} {ps : List (Piece Text)}
    (hload : Loader.loadFirst disk e.allLoaders name = .ok (write e.delimiters id ps))
    (hps : Standalone e.delimiters ps) (fuel : Nat) {ancestry : Ancestry} (hname : name ∉ ancestry)
    (definitions : Blocks) (p : Progress) :
    e.compose disk ctx (fuel + 1) ancestry definitions name p =
      match firstTag e.delimiters e.delimiters.baseTag ps with
      | none =>
        (.ok (definitions.resolve e.delimiters [] (write e.delimiters id ps)),
          ⟨p.regions, p.requests ++ [name]⟩)
      | some (_, next, _, _) =>
        andThen (e.compose disk ctx fuel (ancestry ++ [name])
          (Blocks.collect e.delimiters (write e.delimiters id ps) definitions) next
          ⟨p.regions, p.requests ++ [name]⟩) fun base p =>
            (.ok (withBase e.delimiters id (unblocked e.delimiters ps) base), p) := by
  have hsound : Fragment.Sound e.delimiters (ps.map .piece) :=
    Fragment.sound_pieces (fun s hs => hps.tidy _ hs) fun body hbody =>
      ⟨hps.tidy _ hbody, hps.regions body hbody⟩
  rw [← Fragment.source_pieces] at hload
  rw [compose_source ctx hd id ProtectedRegions.placeholder (fun _ => rfl)
    (fun _ => rfl) hsound hload
    (Fragment.tidy_shelve hd hsound) fuel ancestry definitions p hname, Fragment.shelve_pieces,
    insertAll_write _ hps.includes, Fragment.contents_pieces, List.append_nil]
  change e.finish disk ctx fuel (ancestry ++ [name]) definitions (write e.delimiters id ps)
    ⟨p.regions, p.requests ++ [name]⟩ = _
  rw [finish_write hd fuel _ definitions hps.tidy]
  cases firstTag e.delimiters e.delimiters.baseTag ps <;> rfl

/-- Composing a row of templates: each asks for its base when it has handed its definitions on. -/
theorem compose_lineage (hd : e.delimiters.Apart) {name : String} {ps : List (Piece Text)}
    {ts : List NamedOutline} (h : e.Lineage disk ((name, ps) :: ts)) {fuel : Nat}
    (hfuel : ts.length < fuel) {ancestry : Ancestry}
    (hnames : (ancestry ++ ((name, ps) :: ts).map (·.1)).Nodup) (definitions : Blocks)
    (p : Progress) :
    e.compose disk ctx fuel ancestry definitions name p =
      (.ok (composed e.delimiters definitions ((name, ps) :: ts)),
        ⟨p.regions, p.requests ++ ((name, ps) :: ts).map (·.1)⟩) := by
  induction ts generalizing name ps fuel ancestry definitions p with
  | nil =>
    obtain ⟨fuel, rfl⟩ : ∃ n, fuel = n + 1 := ⟨fuel - 1, by omega⟩
    have hname : name ∉ ancestry := fun hmem =>
      (List.nodup_append.mp hnames).2.2 name hmem name (by simp) rfl
    cases h with
    | root loads standalone base =>
      rw [compose_standalone hd loads standalone fuel hname, firstTag_of_readings_nil base]
      rfl
  | cons t ts ih =>
    obtain ⟨fuel, rfl⟩ : ∃ n, fuel = n + 1 := ⟨fuel - 1, by omega⟩
    have hname : name ∉ ancestry := fun hmem =>
      (List.nodup_append.mp hnames).2.2 name hmem name (by simp) rfl
    cases h with
    | @derived _ next _ qs _ loads standalone base above =>
      obtain ⟨front, body, back, hfirst⟩ := firstTag_of_readings_singleton base
      have hrest : ((ancestry ++ [name]) ++ ((next, qs) :: ts).map (·.1)).Nodup := by
        simpa using hnames
      have hnext :=
        ih above (Nat.lt_of_succ_lt_succ hfuel) hrest
        (Blocks.collect e.delimiters (write e.delimiters id ps) definitions)
        ⟨p.regions, p.requests ++ [name]⟩
      have hbase := (readings_unblocked hd standalone.tidy standalone.nested).trans base
      have hdefinitions := composed_congr e.delimiters
        (get?_collect hd standalone.tidy standalone.nested definitions) ((next, qs) :: ts)
      rw [compose_standalone hd loads standalone fuel hname, hfirst]
      dsimp only
      rw [hnext, andThen, withBase_eq_filled hbase, hdefinitions,
        composed.eq_3 _ _ _ _ (List.cons_ne_nil _ _)]
      simp [around]

theorem Lineage.forall {ts : List NamedOutline} (h : e.Lineage disk ts) :
    ∀ t ∈ ts, Loader.loadFirst disk e.allLoaders t.1 = .ok (write e.delimiters id t.2) ∧
      Standalone e.delimiters t.2 := by
  induction h with
  | root loads standalone base => simpa using ⟨loads, standalone⟩
  | derived loads standalone base above ih =>
      exact List.forall_mem_cons.mpr ⟨⟨loads, standalone⟩, ih⟩

/-- What the templates of a row name as their bases. -/
theorem Lineage.bases {ts : List NamedOutline} (h : e.Lineage disk ts) :
    ts.map (fun t => readings e.delimiters e.delimiters.baseTag t.2) =
      (ts.map (·.1)).tail.map ([·]) ++ [[]] := by
  induction h with
  | root loads standalone base => simp [base]
  | derived loads standalone base above ih =>
    rw [List.map_cons, ih, base]
    rfl

/-- Templates of one row have different sources, since they name different bases. -/
theorem Lineage.nodup_sources (hd : e.delimiters.Apart) {ts : List NamedOutline}
    (h : e.Lineage disk ts) (hnames : (ts.map (·.1)).Nodup) :
    (ts.map fun t => write e.delimiters id t.2).Nodup := by
  have hbases : (ts.map fun t => readings e.delimiters e.delimiters.baseTag t.2).Nodup := by
    rw [h.bases, List.nodup_append]
    refine ⟨?_, by simp, fun bases hbases other hother => ?_⟩
    · rw [List.Nodup, List.pairwise_map]
      exact (hnames.sublist (List.tail_sublist _)).imp fun hne heq => hne (List.cons.inj heq).1
    · obtain ⟨name, -, rfl⟩ := List.mem_map.mp hbases
      obtain rfl := List.mem_singleton.mp hother
      simp
  have hscan : ∀ t ∈ ts, readings e.delimiters e.delimiters.baseTag t.2 =
      (Tag.scan e.delimiters.baseTag (write e.delimiters id t.2)).map (·.content) := fun t ht =>
    (content_scan hd (Delimiters.delimited_baseTag hd) (h.forall t ht).2.tidy).symm
  rw [List.map_congr_left hscan, List.Nodup, List.pairwise_map] at hbases
  rw [List.Nodup, List.pairwise_map]
  exact hbases.imp fun hne heq => hne (by rw [heq])

/-- A row of templates is composed to the text of its last, inside what the others have outside
their blocks. Every block of the last shows the first definition that the others have for it, or
what is in it. -/
theorem compose_derived (hd : e.delimiters.Apart) (ctx : Context) {derived : List NamedOutline}
    {root : NamedOutline} (h : e.Lineage disk (derived ++ [root]))
    (hnames : ((derived ++ [root]).map (·.1)).Nodup) :
    let definitions : Blocks := derived.flatMap fun t => declarations e.delimiters id t.2
    e.compose disk ctx (e.depthBound disk) [] [] ((derived ++ [root]).head (by simp)).1 {} =
        (.ok (derived.foldr (fun t base => around e.delimiters t.2 base)
          (definitions.resolve e.delimiters [] (write e.delimiters id root.2))),
          ⟨[], (derived ++ [root]).map (·.1)⟩) ∧
      definitions.resolve e.delimiters [] (write e.delimiters id root.2) =
        (segments (blockPairing e.delimiters) root.2).flatMap
          (replaced e.delimiters id fun name inside =>
            definitions.resolve e.delimiters [name]
              ((definitions.get? name).getD (write e.delimiters id inside))) := by
  intro definitions
  refine ⟨?_, resolve_write hd definitions [] (h.forall root (by simp)).2.tidy⟩
  -- the names are as many as sources, which are different
  have hfuel : (derived ++ [root]).length < e.depthBound disk := by
    have := e.length_lt_depthBound disk (h.nodup_sources hd hnames) fun s hs => by
      obtain ⟨t, ht, rfl⟩ := List.mem_map.mp hs
      exact ⟨t.1, (h.forall t ht).1⟩
    rwa [List.length_map] at this
  have hcomposed := composed_eq_foldr e.delimiters [] derived root
  rw [List.nil_append] at hcomposed
  rw [← hcomposed]
  obtain ⟨⟨name, ps⟩, ts, hts⟩ := List.exists_cons_of_ne_nil (List.concat_ne_nil root derived)
  simp only [hts, List.head_cons] at h hnames hfuel ⊢
  exact compose_lineage hd h (Nat.lt_of_succ_lt hfuel) hnames [] {}

/-- A page that defines a block of its layout. -/
def page : NamedOutline :=
  ("t", [.tag "block m".toList, .plain ['1'], .tag "endblock".toList, .tag "extends: b".toList])

/-- A layout with a block. -/
def layout : NamedOutline :=
  ("b", [.plain ['<'], .tag "block m".toList, .plain ['0'], .tag "endblock".toList, .plain ['>']])

/-- The layout shows the block of the page. -/
theorem compose_derived_page :
    let e : Engine :=
      { sources := [("t", write .braces id page.2), ("b", write .braces id layout.2)] }
    e.compose ⟨[], [], none⟩ [] (e.depthBound ⟨[], [], none⟩) [] [] "t" {} =
      (.ok "<1>".toList, ⟨[], ["t", "b"]⟩) := by
  intro e
  have hopening : reading Delimiters.braces Delimiters.braces.blockOpening "block m".toList =
      some "m" := by rfl
  have hclosing : reading Delimiters.braces Delimiters.braces.blockClosing "endblock".toList =
      some () := by rfl
  have hbase : reading Delimiters.braces Delimiters.braces.baseTag "extends: b".toList =
      some "b" := by rfl
  have hpage : Standalone .braces page.2 :=
    ⟨by decide, .opening hopening (.plain (.closing hclosing (.base hbase .nil))),
      by simp [page]; decide, by simp [page]; decide⟩
  have hlayout : Standalone .braces layout.2 :=
    ⟨by decide, .plain (.opening hopening (.plain (.closing hclosing (.plain .nil)))),
      by simp [layout]; decide, by simp [layout]; decide⟩
  have hlineage : e.Lineage ⟨[], [], none⟩ ([page] ++ [layout]) :=
    .derived rfl hpage (by rfl) (.root rfl hlayout (by rfl))
  obtain ⟨hcompose, hresolve⟩ :=
    compose_derived (e := e) Delimiters.apart_braces [] hlineage (by decide)
  have hpair : pairFrom (blockPairing Delimiters.braces) "block m".toList
      [.plain ['0'], .tag "endblock".toList, .plain ['>']] =
        some ("m", [.plain ['0']], "endblock".toList, [.plain ['>']]) := by rfl
  have hsegments : segments (blockPairing Delimiters.braces) layout.2 =
      [.piece (.plain ['<']), .pair "m" "block m".toList [.plain ['0']] "endblock".toList,
        .piece (.plain ['>'])] := by
    rw [layout, segments, segments_cons_some hpair, segments, segments]
  have hblock : ∀ definitions : Blocks, definitions.get? "m" = some ['1'] →
      definitions.resolve .braces ["m"] ((definitions.get? "m").getD ['0']) = ['1'] := by
    intro definitions hget
    rw [hget]
    exact Blocks.resolve_unclosed (List.isEmpty_iff.mp (by decide +kernel)) _ _
  refine hcompose.trans ?_
  rw [hresolve, hsegments]
  have haround : around .braces page.2 "<1>".toList = "<1>".toList := by decide +kernel
  refine congrArg (fun t => (Except.ok t, Progress.mk [] ["t", "b"])) (Eq.trans ?_ haround)
  exact congrArg (fun t => around .braces page.2 ('<' :: (t ++ ['>']))) (hblock _ (by rfl))

/-- Removing the only block of a text. -/
theorem strip_single {d : Delimiters} {s : Text} {t : Tag String} {c : Tag Unit}
    (hopening : Tag.scan d.blockOpening s = [t])
    (hclosing : Tag.closing? (d.blockOpening.map fun _ => ()) d.blockClosing () s t.stop = some c) :
    Blocks.strip d s = s.splice [⟨t.start, c.stop, []⟩] := by
  rw [Blocks.strip, Blocks.outermost, hopening]
  simp [Tag.outermost, hclosing]

/-- Composing a template that includes none, given its base and what is left without its blocks. -/
theorem compose_extending {name : String} {s rest base : Text} {t t' : Tag String}
    {regions : ProtectedRegions} {ancestry : Ancestry} {definitions : Blocks} {p p' : Progress}
    {fuel : Nat} (hname : name ∉ ancestry) (hload : Loader.loadFirst disk e.allLoaders name = .ok s)
    (hextract : ProtectedRegions.extract e.delimiters p.regions s = (s, regions))
    (hincludes : Tag.scan e.delimiters.includeTag s = [])
    (hbase : Tag.scan e.delimiters.baseTag s = [t])
    (hcompose : e.compose disk ctx fuel (ancestry ++ [name])
      (Blocks.collect e.delimiters s definitions) t.content ⟨regions, p.requests ++ [name]⟩ =
        (.ok base, p'))
    (hstrip : Blocks.strip e.delimiters s = rest)
    (hrest : (Tag.scan e.delimiters.baseTag rest).head? = some t') :
    e.compose disk ctx (fuel + 1) ancestry definitions name p =
      (.ok (rest.splice [⟨t'.start, t'.stop, base⟩]), p') := by
  have hsplice : s.splice [] = s := rfl
  rw [compose_loaded hname hload hextract, hincludes]
  simp only [runAll, andThen, hsplice]
  rw [finish, hbase]
  simp only [List.head?_cons, hcompose, andThen, hstrip, hrest]

/-- Where a block was, the texts around it may come together as a tag. -/
theorem compose_derived_misled :
    let d : Delimiters := ⟨['<', '%'], ['%', '>'], by simp, by simp⟩
    let ps : List (Piece Text) := [.plain ['<'], .tag "block a".toList, .plain ['x'],
      .tag "endblock".toList, .plain "%extends: zz%>".toList, .tag "extends: b".toList]
    let e : Engine := { delimiters := d, sources := [("t", write d id ps), ("b", "base".toList)] }
    readings d d.baseTag ps = ["b"] ∧ Nested d 0 ps ∧
      (e.compose ⟨[], [], none⟩ [] (e.depthBound ⟨[], [], none⟩) [] [] "t" {}).1 ≠
        .ok (around d ps "base".toList) := by
  intro d ps e
  have hopening : reading d d.blockOpening "block a".toList = some "a" := by rfl
  have hclosing : reading d d.blockClosing "endblock".toList = some () := by rfl
  have hbase : reading d d.baseTag "extends: b".toList = some "b" := by rfl
  refine ⟨by rfl,
    .plain (.opening hopening (.plain (.closing hclosing (.plain (.base hbase .nil))))), ?_⟩
  -- the block is found and removed
  have hblock : Tag.scan d.blockOpening (write d id ps) =
      [⟨1, "<%block a%>".toList, "a", by decide⟩] := by rfl
  have hopenings : Tag.scanFrom (d.blockOpening.map fun _ => ()) 12 0 ((write d id ps).drop 12) =
      [] :=
    List.isEmpty_iff.mp (by decide +kernel)
  have hclosings : Tag.scanFrom d.blockClosing 12 0 ((write d id ps).drop 12) =
      [⟨13, "<%endblock%>".toList, (), by decide⟩] := by rfl
  have hclose : Tag.closing? (d.blockOpening.map fun _ => ()) d.blockClosing () (write d id ps) 12 =
      some ⟨13, "<%endblock%>".toList, (), by decide⟩ := by
    rw [Tag.closing?, Tag.Edge.edges, hopenings, hclosings]
    simp [Tag.Edge.unmatched?]
  have hstrip : Blocks.strip d (write d id ps) = "<%extends: zz%><%extends: b%>".toList :=
    (strip_single hblock hclose).trans (by rfl)
  -- so the tag that is left first is another one
  obtain ⟨n, hn⟩ := e.exists_depthBound ⟨[], [], none⟩
  have hsource : Tag.scan d.baseTag (write d id ps) =
      [⟨39, "<%extends: b%>".toList, "b", by decide⟩] := by rfl
  have hmisled : (Tag.scan d.baseTag "<%extends: zz%><%extends: b%>".toList).head? =
      some ⟨0, "<%extends: zz%>".toList, "zz", by decide⟩ := by rfl
  have hunprotected : ∀ regions, ProtectedRegions.extract d regions (write d id ps) =
      (write d id ps, regions) :=
    ProtectedRegions.extract_unprotected (List.isEmpty_iff.mp (by decide +kernel))
  have hlayout : ∀ definitions p, e.compose ⟨[], [], none⟩ [] (n + 1) ["t"] definitions "b" p =
      (.ok "base".toList, ⟨p.regions, p.requests ++ ["b"]⟩) := fun definitions p =>
    compose_single (by decide) rfl
      (ProtectedRegions.extract_unprotected (List.isEmpty_iff.mp (by decide +kernel)) _)
      (List.isEmpty_iff.mp (by decide +kernel)) (List.isEmpty_iff.mp (by decide +kernel))
      (List.isEmpty_iff.mp (by decide +kernel)) [] n _
  have hcompose : e.compose ⟨[], [], none⟩ [] (n + 2) [] [] "t" {} = (.ok _, _) :=
    compose_extending (by simp) rfl (hunprotected _)
      (List.isEmpty_iff.mp (by decide +kernel)) hsource
      (hlayout _ _) hstrip hmisled
  rw [hn, hcompose]
  have haround : around d ps "base".toList = "<%extends: zz%>base".toList := by decide +kernel
  rw [haround]
  intro h
  have := Except.ok.inj h
  revert this
  decide +kernel

end Engine

end Stencil
