import Stencil.Proofs.Composition.Outline
import Stencil.Proofs.Document.Loops
import Stencil.Proofs.Tag.Unclosed

/-!
# Rendering documents

A printed document is rendered as what it means: every value in its own scope, every loop row by
row, of every conditional the branch that survives, and every region as it is.

The regions are put aside first, under numbers that count them from left to right, and put back
last. In between, no pass takes a tag for another, and none finds a tag or a placeholder in what an
earlier one has put into the text.
-/

namespace Stencil

open Recognizer Outline ProtectedRegions

/-! ## Numbering regions -/

variable {ρ : Type}

mutual

/-- The regions of a document, from left to right. -/
def Doc.contents : Doc ρ → List ρ
  | .nil => []
  | .text _ rest => rest.contents
  | .region content rest => content :: rest.contents
  | .value _ _ rest => rest.contents
  | .loop _ body rest => body.contents ++ rest.contents
  | .choice _ body others rest => body.contents ++ (others.contents ++ rest.contents)

/-- The regions of branches. -/
def Branches.contents : Branches ρ → List ρ
  | .nil => []
  | .otherwise body => body.contents
  | .elseif _ body others => body.contents ++ others.contents

end

mutual

/-- A document with its regions by number, given how many regions there were before. -/
def Doc.numbered (count : Nat) : Doc ρ → Doc Nat
  | .nil => .nil
  | .text s rest => .text s (rest.numbered count)
  | .region _ rest => .region count (rest.numbered (count + 1))
  | .value path chain? rest => .value path chain? (rest.numbered count)
  | .loop head body rest =>
    .loop head (body.numbered count) (rest.numbered (count + body.contents.length))
  | .choice condition body others rest =>
    .choice condition (body.numbered count) (others.numbered (count + body.contents.length))
      (rest.numbered (count + body.contents.length + others.contents.length))

/-- Branches with their regions by number. -/
def Branches.numbered (count : Nat) : Branches ρ → Branches Nat
  | .nil => .nil
  | .otherwise body => .otherwise (body.numbered count)
  | .elseif condition body others =>
    .elseif condition (body.numbered count) (others.numbered (count + body.contents.length))

end

mutual

/-- Numbering leaves all parts but the regions as they are. -/
theorem Doc.obeys_numbered {r : Rules ρ} {r' : Rules Nat} (htext : ∀ {s}, r.text s → r'.text s)
    (hregion : ∀ n, r'.region n)
    (hvalue : ∀ {path chain?}, r.value path chain? → r'.value path chain?)
    (hloop : ∀ {head}, r.loop head → r'.loop head)
    (hcondition : ∀ {condition}, r.condition condition → r'.condition condition) :
    ∀ (doc : Doc ρ) (count : Nat), doc.Obeys r → (doc.numbered count).Obeys r'
  | .nil, _, _ => trivial
  | .text _ rest, _, h =>
    ⟨htext h.1, rest.obeys_numbered htext hregion hvalue hloop hcondition _ h.2⟩
  | .region _ rest, count, h =>
    ⟨hregion count, rest.obeys_numbered htext hregion hvalue hloop hcondition _ h.2⟩
  | .value _ _ rest, _, h =>
    ⟨hvalue h.1, rest.obeys_numbered htext hregion hvalue hloop hcondition _ h.2⟩
  | .loop _ body rest, _, h =>
    ⟨hloop h.1, body.obeys_numbered htext hregion hvalue hloop hcondition _ h.2.1,
      rest.obeys_numbered htext hregion hvalue hloop hcondition _ h.2.2⟩
  | .choice _ body others rest, _, h =>
    ⟨hcondition h.1, body.obeys_numbered htext hregion hvalue hloop hcondition _ h.2.1,
      others.obeys_numbered htext hregion hvalue hloop hcondition _ h.2.2.1,
      rest.obeys_numbered htext hregion hvalue hloop hcondition _ h.2.2.2⟩

/-- It does so in branches. -/
theorem Branches.obeys_numbered {r : Rules ρ} {r' : Rules Nat}
    (htext : ∀ {s}, r.text s → r'.text s) (hregion : ∀ n, r'.region n)
    (hvalue : ∀ {path chain?}, r.value path chain? → r'.value path chain?)
    (hloop : ∀ {head}, r.loop head → r'.loop head)
    (hcondition : ∀ {condition}, r.condition condition → r'.condition condition) :
    ∀ (others : Branches ρ) (count : Nat), others.Obeys r → (others.numbered count).Obeys r'
  | .nil, _, _ => trivial
  | .otherwise body, _, h => body.obeys_numbered htext hregion hvalue hloop hcondition _ h
  | .elseif _ body others, _, h =>
    ⟨hcondition h.1, body.obeys_numbered htext hregion hvalue hloop hcondition _ h.2.1,
      others.obeys_numbered htext hregion hvalue hloop hcondition _ h.2.2⟩

end

mutual

/-- Values are not concerned by numbering. -/
theorem Doc.yields_numbered {e : Engine} : ∀ (doc : Doc ρ) (count : Nat) (ctx : Context),
    doc.Yields e ctx → (doc.numbered count).Yields e ctx
  | .nil, _, _, _ => trivial
  | .text _ rest, _, ctx, h => rest.yields_numbered _ ctx h
  | .region _ rest, _, ctx, h => rest.yields_numbered _ ctx h
  | .value _ _ rest, _, ctx, h => ⟨h.1, rest.yields_numbered _ ctx h.2⟩
  | .loop _ body rest, _, ctx, h =>
    ⟨fun x hx => body.yields_numbered _ _ (h.1 x hx), rest.yields_numbered _ ctx h.2⟩
  | .choice _ body others rest, _, ctx, h =>
    ⟨body.yields_numbered _ ctx h.1, others.yields_numbered _ ctx h.2.1,
      rest.yields_numbered _ ctx h.2.2⟩

/-- Nor are they in branches. -/
theorem Branches.yields_numbered {e : Engine} : ∀ (others : Branches ρ) (count : Nat)
    (ctx : Context), others.Yields e ctx → (others.numbered count).Yields e ctx
  | .nil, _, _, _ => trivial
  | .otherwise body, _, ctx, h => body.yields_numbered _ ctx h
  | .elseif _ body others, _, ctx, h =>
    ⟨body.yields_numbered _ ctx h.1, others.yields_numbered _ ctx h.2⟩

end

theorem prefix_drop_append {α : Type} {xs ys zs : List α} {n : Nat} (h : xs ++ ys <+: zs.drop n) :
    xs <+: zs.drop n ∧ ys <+: zs.drop (n + xs.length) := by
  refine ⟨(List.prefix_append xs ys).trans h, ?_⟩
  obtain ⟨tail, htail⟩ := h
  refine ⟨tail, ?_⟩
  rw [← List.drop_drop, ← htail, List.append_assoc, List.drop_left]

mutual

/-- A numbered document means the same when the regions stand behind their numbers. -/
theorem Doc.meaning_numbered (e : Engine) (regions : ProtectedRegions) :
    ∀ (doc : Doc Text) (count : Nat) (ctx : Context), doc.contents <+: regions.drop count →
      (doc.numbered count).meaning e (fun i => (regions[i]?).getD (placeholder i)) ctx =
        doc.meaning e id ctx
  | .nil, _, _, _ => rfl
  | .text s rest, count, ctx, h => by
    rw [Doc.numbered, Doc.meaning, Doc.meaning, rest.meaning_numbered e regions count ctx h]
  | .region content rest, count, ctx, h => by
    obtain ⟨hcontent, hrest⟩ : [content] <+: regions.drop count ∧
      rest.contents <+: regions.drop (count + 1) := prefix_drop_append h
    have hget : regions[count]? = some content := by
      obtain ⟨tail, htail⟩ := hcontent
      have := congrArg (·[0]?) htail
      simpa using this.symm
    rw [Doc.numbered, Doc.meaning, Doc.meaning, hget, rest.meaning_numbered e regions _ ctx hrest]
    rfl
  | .value path chain? rest, count, ctx, h => by
    rw [Doc.numbered, Doc.meaning, Doc.meaning, rest.meaning_numbered e regions count ctx h]
  | .loop head body rest, count, ctx, h => by
    obtain ⟨hbody, hrest⟩ := prefix_drop_append h
    rw [Doc.numbered, Doc.meaning, Doc.meaning, rest.meaning_numbered e regions _ ctx hrest]
    simp only [body.meaning_numbered e regions count _ hbody]
  | .choice condition body others rest, count, ctx, h => by
    obtain ⟨hbody, htail⟩ := prefix_drop_append h
    obtain ⟨hothers, hrest⟩ := prefix_drop_append htail
    rw [Doc.numbered, Doc.meaning, Doc.meaning, body.meaning_numbered e regions _ ctx hbody,
      others.meanings_numbered e regions _ ctx hothers, rest.meaning_numbered e regions _ ctx hrest]

/-- So do branches. -/
theorem Branches.meanings_numbered (e : Engine) (regions : ProtectedRegions) :
    ∀ (others : Branches Text) (count : Nat) (ctx : Context),
      others.contents <+: regions.drop count →
        (others.numbered count).meanings e (fun i => (regions[i]?).getD (placeholder i)) ctx =
          others.meanings e id ctx
  | .nil, _, _, _ => rfl
  | .otherwise body, count, ctx, h => by
    rw [Branches.numbered, Branches.meanings, Branches.meanings,
      body.meaning_numbered e regions count ctx h]
  | .elseif condition body others, count, ctx, h => by
    obtain ⟨hbody, hothers⟩ := prefix_drop_append h
    rw [Branches.numbered, Branches.meanings, Branches.meanings,
      body.meaning_numbered e regions count ctx hbody,
      others.meanings_numbered e regions _ ctx hothers]

end

/-! ## Putting regions aside -/

/-- Branches as a part of a source. -/
def Branches.fragments (others : Branches Text) : List Fragment :=
  others.parts .piece fun content => .region "noparse".toList content "/noparse".toList

mutual

/-- What is left of a source when the regions of a document in it are put aside, and what is put
aside. -/
theorem Doc.shelve_fragments : ∀ (doc : Doc Text) (count : Nat) (fs : List Fragment),
    Fragment.shelve id placeholder count (doc.fragments ++ fs) = (doc.numbered count).pieces ++
        Fragment.shelve id placeholder (count + doc.contents.length) fs ∧
      Fragment.contents (doc.fragments ++ fs) = doc.contents ++ Fragment.contents fs
  | .nil, _, _ => ⟨rfl, rfl⟩
  | .text s rest, count, fs => by
    obtain ⟨hshelve, hcontents⟩ := rest.shelve_fragments count fs
    exact ⟨congrArg (Piece.plain s :: ·) hshelve, hcontents⟩
  | .region content rest, count, fs => by
    obtain ⟨hshelve, hcontents⟩ := rest.shelve_fragments (count + 1) fs
    refine ⟨?_, congrArg (content :: ·) hcontents⟩
    rw [Doc.contents, List.length_cons, Nat.add_comm _ 1, ← Nat.add_assoc]
    exact congrArg (Piece.plain (placeholder count) :: ·) hshelve
  | .value path chain? rest, count, fs => by
    obtain ⟨hshelve, hcontents⟩ := rest.shelve_fragments count fs
    exact ⟨congrArg (Piece.tag (valueTag path chain?) :: ·) hshelve, hcontents⟩
  | .loop head body rest, count, fs => by
    have hfs : (Doc.loop head body rest).fragments ++ fs = .piece (.tag head.openingTag) ::
        (body.fragments ++ .piece (.tag head.closingTag) :: (rest.fragments ++ fs)) := by
      simp [Doc.fragments, Doc.parts]
    obtain ⟨hbody, hbodyContents⟩ := body.shelve_fragments count
      (.piece (.tag head.closingTag) :: (rest.fragments ++ fs))
    obtain ⟨hrest, hrestContents⟩ := rest.shelve_fragments (count + body.contents.length) fs
    rw [hfs]
    constructor
    · rw [Fragment.shelve, hbody, Fragment.shelve, hrest, Doc.numbered,
        Doc.pieces_loop, Doc.contents, List.length_append]
      simp [Nat.add_assoc]
    · rw [Fragment.contents, hbodyContents, Fragment.contents, hrestContents, Doc.contents,
        List.append_assoc]
  | .choice condition body others rest, count, fs => by
    have hfs : (Doc.choice condition body others rest).fragments ++ fs =
        .piece (.tag (ifTag condition)) :: (body.fragments ++ (others.fragments ++
          .piece (.tag "endif".toList) :: (rest.fragments ++ fs))) := by
      simp [Doc.fragments, Branches.fragments, Doc.parts]
    obtain ⟨hbody, hbodyContents⟩ := body.shelve_fragments count
      (others.fragments ++ .piece (.tag "endif".toList) :: (rest.fragments ++ fs))
    obtain ⟨hothers, hothersContents⟩ := others.shelve_fragments (count + body.contents.length)
      (.piece (.tag "endif".toList) :: (rest.fragments ++ fs))
    obtain ⟨hrest, hrestContents⟩ := rest.shelve_fragments
      (count + body.contents.length + others.contents.length) fs
    rw [hfs]
    constructor
    · rw [Fragment.shelve, hbody, hothers, Fragment.shelve, hrest, Doc.numbered, Doc.pieces_choice,
        Doc.contents, List.length_append, List.length_append]
      simp [Nat.add_assoc]
    · rw [Fragment.contents, hbodyContents, hothersContents, Fragment.contents, hrestContents,
        Doc.contents, List.append_assoc, List.append_assoc]

/-- What is left of branches, and what is put aside. -/
theorem Branches.shelve_fragments : ∀ (others : Branches Text) (count : Nat) (fs : List Fragment),
    Fragment.shelve id placeholder count (others.fragments ++ fs) =
        (others.numbered count).pieces ++
          Fragment.shelve id placeholder (count + others.contents.length) fs ∧
      Fragment.contents (others.fragments ++ fs) = others.contents ++ Fragment.contents fs
  | .nil, _, _ => ⟨rfl, rfl⟩
  | .otherwise body, count, fs => by
    obtain ⟨hshelve, hcontents⟩ := body.shelve_fragments count fs
    exact ⟨congrArg (Piece.tag "else".toList :: ·) hshelve, hcontents⟩
  | .elseif condition body others, count, fs => by
    have hfs : (Branches.elseif condition body others).fragments ++ fs =
        .piece (.tag (elseifTag condition)) :: (body.fragments ++ (others.fragments ++ fs)) := by
      simp [Doc.fragments, Branches.fragments, Branches.parts]
    obtain ⟨hbody, hbodyContents⟩ := body.shelve_fragments count (others.fragments ++ fs)
    obtain ⟨hothers, hothersContents⟩ :=
      others.shelve_fragments (count + body.contents.length) fs
    rw [hfs]
    constructor
    · rw [Fragment.shelve, hbody, hothers, Branches.numbered, Branches.pieces_elseif,
        Branches.contents, List.length_append]
      simp [Nat.add_assoc]
    · rw [Fragment.contents, hbodyContents, hothersContents, Branches.contents, List.append_assoc]

end

/-- What the parts of a document whose regions have been numbered may be like. -/
def numberedRules (d : Delimiters) (legacy : List Text) : Rules Nat where
  text s := d.Plain s ∧ opener ∉ s
  region _ := True
  value := IsValue d legacy
  loop := IsLoop legacy
  condition := IsCondition d

theorem strict_numberedRules (d : Delimiters) (legacy : List Text) :
    (numberedRules d legacy).Strict d legacy :=
  ⟨fun h => h.1, id, id, id⟩

theorem Doc.WellFormed.numbered {d : Delimiters} {doc : Doc Text} (h : doc.WellFormed d)
    (count : Nat) : (doc.numbered count).Obeys (numberedRules d doc.legacyPaths) :=
  doc.obeys_numbered (r := printable d doc.legacyPaths) id (fun _ => trivial) id id id count h

theorem Fragment.sound_parts {d : Delimiters} (hd : d.Apart) {fs : List Fragment}
    {legacy : List Text}
    (h : ∀ f ∈ fs, (∃ q, Drawn d legacy q ∧ f = .piece q) ∨
      ∃ content, (d.Unclosed content ∧ opener ∉ content) ∧
        f = .region "noparse".toList content "/noparse".toList) :
    Fragment.Sound d fs := by
  have hfree : ∀ {w : Text}, w.all isTagChar = true → d.Free w := fun hw =>
    hd.free_of_tagChar (List.all_eq_true.mp hw)
  induction fs with
  | nil => trivial
  | cons f fs ih =>
    have ih := ih fun f hf => h f (by simp [hf])
    rcases h f (by simp) with ⟨q, hq, rfl⟩ | ⟨content, ⟨hcontent, -⟩, rfl⟩
    · cases q with
      | plain s => exact ⟨hq.tidy hd, ih⟩
      | tag body => exact ⟨hq.tidy hd, .inl (hq.silent hd).region, ih⟩
    · exact ⟨hfree (by decide), hfree (by decide), Delimiters.reading_regionOpening hd,
        Delimiters.reading_regionClosing hd, hcontent, ih⟩

mutual

/-- The paths of legacy loops are paths of loops. -/
theorem Doc.forall_legacyPaths {r : Rules ρ} {A : Text → Prop}
    (hloop : ∀ head, r.loop head → A head.path) :
    ∀ doc : Doc ρ, doc.Obeys r → ∀ path ∈ doc.legacyPaths, A path
  | .nil, _ => by simp [Doc.legacyPaths]
  | .text _ rest, h => rest.forall_legacyPaths hloop h.2
  | .region _ rest, h => rest.forall_legacyPaths hloop h.2
  | .value _ _ rest, h => rest.forall_legacyPaths hloop h.2
  | .loop head body rest, h => by
    have hbody := body.forall_legacyPaths hloop h.2.1
    have hrest := rest.forall_legacyPaths hloop h.2.2
    rw [Doc.legacyPaths]
    refine List.forall_mem_append.mpr ⟨?_, List.forall_mem_append.mpr ⟨hbody, hrest⟩⟩
    cases head.form with
    | bound name => simp
    | legacy => simpa using hloop head h.1
  | .choice _ body others rest, h => by
    rw [Doc.legacyPaths]
    exact List.forall_mem_append.mpr ⟨body.forall_legacyPaths hloop h.2.1,
      List.forall_mem_append.mpr ⟨others.forall_legacyPaths hloop h.2.2.1,
        rest.forall_legacyPaths hloop h.2.2.2⟩⟩

/-- So they are in branches. -/
theorem Branches.forall_legacyPaths {r : Rules ρ} {A : Text → Prop}
    (hloop : ∀ head, r.loop head → A head.path) :
    ∀ others : Branches ρ, others.Obeys r → ∀ path ∈ others.legacyPaths, A path
  | .nil, _ => by simp [Branches.legacyPaths]
  | .otherwise body, h => body.forall_legacyPaths hloop h
  | .elseif _ body others, h => by
    rw [Branches.legacyPaths]
    exact List.forall_mem_append.mpr ⟨body.forall_legacyPaths hloop h.2.1,
      others.forall_legacyPaths hloop h.2.2⟩

end

/-- What well-formed documents are printed from. -/
theorem Doc.WellFormed.fragments {d : Delimiters} {doc : Doc Text} (h : doc.WellFormed d) :
    ∀ f ∈ doc.fragments, (∃ q, Drawn d doc.legacyPaths q ∧ f = .piece q) ∨
      ∃ content, (d.Unclosed content ∧ opener ∉ content) ∧
        f = .region "noparse".toList content "/noparse".toList :=
  doc.mem_parts (r := printable d doc.legacyPaths) ⟨fun h => h.1, id, id, id⟩ h

namespace Engine

variable {e : Engine} {disk : Disk}

/-- There is nothing to finish where no tag has a part in composition. -/
theorem finish_silent (hd : e.delimiters.Apart) {ctx : Context} (fuel : Nat) (ancestry : Ancestry)
    {ps : List (Piece Text)} (hps : Tidy e.delimiters id ps)
    (hsilent : ∀ body, .tag body ∈ ps → e.delimiters.Silent body) (p : Progress) :
    e.finish disk ctx fuel ancestry [] (write e.delimiters id ps) p =
      (.ok (write e.delimiters id ps), p) := by
  have hblocks : Blocks.resolve e.delimiters [] [] (write e.delimiters id ps) =
      write e.delimiters id ps := by
    rw [resolve_write hd [] [] hps]
    exact replaced_of_heads_nil
      (fun body hbody => congrArg Option.toList (hsilent body hbody).block) _
  rw [finish_baseless hd fuel _ [] hps fun body hbody => (hsilent body hbody).base, hblocks]

/-- Composing a template whose tags have no part in composition, inside others. -/
theorem compose_silent_within (ctx : Context) (hd : e.delimiters.Apart) {fs : List Fragment}
    (hfs : Fragment.Sound e.delimiters fs) {name : String}
    (hload : Loader.loadFirst disk e.allLoaders name = .ok (Fragment.source e.delimiters fs))
    (hsilent : ∀ body, .piece (.tag body) ∈ fs → e.delimiters.Silent body) (fuel : Nat)
    {ancestry : Ancestry} (hname : name ∉ ancestry) (p : Progress) :
    e.compose disk ctx (fuel + 1) ancestry [] name p =
      (.ok (write e.delimiters id (Fragment.shelve id placeholder p.regions.length fs)),
        ⟨p.regions ++ Fragment.contents fs, p.requests ++ [name]⟩) := by
  have htags : ∀ body, .tag body ∈ Fragment.shelve id placeholder p.regions.length fs →
      e.delimiters.Silent body := by
    intro body hbody
    exact Fragment.forall_mem_shelve (A := fun q => ∀ b, q = .tag b → e.delimiters.Silent b)
      (by simp) (by simp) (fun b hb b' heq => Piece.tag.inj heq ▸ hsilent b hb) _ _ hbody body rfl
  rw [compose_source ctx hd id placeholder (fun _ => rfl) (fun _ => rfl) hfs hload
    (Fragment.tidy_shelve hd hfs) fuel ancestry [] p hname]
  refine (congrArg (andThen · _)
    (insertAll_write _ (fun body hb => (htags body hb).include_) _)).trans
    ?_
  exact finish_silent hd fuel _ (Fragment.tidy_shelve hd hfs _) htags _

/-- Composing a template whose tags have no part in composition. -/
theorem compose_silent (ctx : Context) (hd : e.delimiters.Apart) {fs : List Fragment}
    (hfs : Fragment.Sound e.delimiters fs) {name : String}
    (hload : Loader.loadFirst disk e.allLoaders name = .ok (Fragment.source e.delimiters fs))
    (hsilent : ∀ body, .piece (.tag body) ∈ fs → e.delimiters.Silent body) (fuel : Nat) :
    e.compose disk ctx (fuel + 1) [] [] name {} =
      (.ok (write e.delimiters id (Fragment.shelve id placeholder 0 fs)),
        ⟨Fragment.contents fs, [name]⟩) :=
  compose_silent_within ctx hd hfs hload hsilent fuel (by simp) {}

/-- A printed document is rendered as what it means. -/
theorem render_eq_meaning {σ : Type} (hd : e.delimiters.Apart) (hcache : e.cacheEnabled = false)
    (hplugins : e.plugins = []) {doc : Doc Text} (hdoc : doc.WellFormed e.delimiters)
    {name : String} (hname : name.toList.all isBlank = false)
    (hload : Loader.loadFirst disk e.allLoaders name = .ok (doc.print e.delimiters))
    (store : CacheStore σ) (s : σ) {ctx : Context}
    (hyields : doc.Yields e (e.effectiveContext ctx)) :
    (e.render disk store s name ctx).outcome = .ok (doc.meaning e id (e.effectiveContext ctx)) := by
  generalize hctx : e.effectiveContext ctx = inner at hyields
  have hfragments := hdoc.fragments
  have hsound := Fragment.sound_parts hd hfragments
  have hsilent : ∀ body, .piece (.tag body) ∈ doc.fragments → e.delimiters.Silent body := by
    intro body hbody
    rcases hfragments _ hbody with ⟨q, hq, heq⟩ | ⟨content, -, heq⟩
    · exact (Fragment.piece.inj heq ▸ hq).silent hd
    · exact absurd heq (by simp)
  -- the regions are put aside, and the rest is the outline of the numbered document
  obtain ⟨hshelve, hcontents⟩ := doc.shelve_fragments 0 []
  simp only [List.append_nil, Fragment.shelve, Fragment.contents] at hshelve hcontents
  obtain ⟨n, hn⟩ := e.exists_depthBound disk
  have hcompose := compose_silent inner hd hsound hload hsilent (n + 1)
  rw [← hn, hshelve, hcontents] at hcompose
  -- which is rendered as what it means, but for the regions
  have hobeys := hdoc.numbered 0
  have hnumbered := doc.yields_numbered 0 inner hyields
  have hlegacy : ∀ path ∈ doc.legacyPaths, Stencil.Unreserved path :=
    doc.forall_legacyPaths (r := printable e.delimiters doc.legacyPaths) (fun _ h => h.1) hdoc
  have hprocess := Doc.process_eq_meaning hd hplugins hlegacy (strict_numberedRules _ _) hobeys
    hnumbered.resolves true
  -- and these are put back
  have hopener : ∀ content ∈ doc.contents, opener ∉ content := by
    intro content hcontent
    rw [← hcontents] at hcontent
    obtain ⟨front, back, hmem⟩ := Fragment.mem_contents hcontent
    rcases hfragments _ hmem with ⟨q, -, heq⟩ | ⟨content', h, heq⟩
    · exact absurd heq (by simp)
    · simp only [Fragment.region.injEq] at heq
      exact heq.2.1 ▸ h.2
  have hrestore := ((doc.numbered 0).inscribed (r := numberedRules e.delimiters doc.legacyPaths) id
    inner hobeys hnumbered).restore hopener
  rw [render_uncached hcache store s hname, hctx, renderFresh_ok hcompose]
  dsimp only
  rw [hprocess]
  refine congrArg Except.ok (hrestore.trans ?_)
  exact doc.meaning_numbered e doc.contents 0 inner (List.prefix_refl _)

/-- A document that shows a protected region, and then every row of a list. -/
def roster : Doc Text :=
  .region ['{', 'x', '}']
    (.loop ⟨.bound "x", "r".toList⟩ (.value "x.v".toList none (.text ";".toList .nil)) .nil)

/-- The region is shown as it is, and the rows one after the other. -/
theorem render_eq_meaning_roster :
    ((single (roster.print .braces)).render ⟨[], [], none⟩ .memory [] "t"
        [("r", .list [.object [("v", .str "a")], .object [("v", .str "b")]])]).outcome =
      .ok (['{', 'x', '}'] ++ "a;b;".toList) := by
  have hpath : IsPath "r".toList := ⟨'r', [], rfl, by decide, .nil⟩
  have hvalue : IsPath "x.v".toList :=
    ⟨'x', ['.', 'v'], rfl, by decide,
      .step (w := ['.', 'v']) ⟨'v', by decide, .inr (.inl rfl)⟩ .nil⟩
  have hclosed : Delimiters.braces.Unclosed ['{', 'x', '}'] := by
    intro t ht
    rcases List.suffix_cons_iff.mp ht with rfl | ht
    · rfl
    rcases List.suffix_cons_iff.mp ht with rfl | ht
    · rfl
    rcases List.suffix_cons_iff.mp ht with rfl | ht
    · rfl
    · obtain rfl := List.suffix_nil.mp ht
      rfl
  have hdoc : roster.WellFormed .braces :=
    ⟨⟨hclosed, by simp [opener]⟩,
      ⟨⟨hpath, by decide⟩, ⟨'x', [], rfl, by decide, by simp⟩, by decide⟩,
      ⟨⟨⟨hvalue, by decide⟩, by decide⟩, ⟨by decide, by simp [opener]⟩, trivial⟩, trivial⟩
  refine (render_eq_meaning (e := single (roster.print .braces))
    Delimiters.apart_braces rfl rfl hdoc (by decide) rfl .memory [] ?_).trans rfl
  refine ⟨?_, trivial⟩
  have hrows : (Loop.rows [("r", .list [.object [("v", .str "a")], .object [("v", .str "b")]])]
      ⟨.bound "x", "r".toList⟩).zipIdx =
        [(.object [("v", .str "a")], 0), (.object [("v", .str "b")], 1)] := rfl
  exact hrows ▸ List.forall_mem_cons.mpr ⟨⟨⟨"a".toList, rfl, by decide, by simp [opener]⟩, trivial⟩,
    List.forall_mem_cons.mpr ⟨⟨⟨"b".toList, rfl, by decide, by simp [opener]⟩, trivial⟩, by simp⟩⟩

/-- Text that spells a placeholder is taken for one. -/
theorem render_ne_meaning :
    let doc : Doc Text := .text (placeholder 0) (.region "x".toList .nil)
    Delimiters.braces.Plain (placeholder 0) ∧
      ((single (doc.print .braces)).render ⟨[], [], none⟩ .memory [] "t" []).outcome ≠
        .ok (doc.meaning (single (doc.print .braces)) id []) := by
  intro doc
  refine ⟨by decide, ?_⟩
  have hfresh : (single (doc.print .braces)).renderFresh ⟨[], [], none⟩ "t" [] =
      (.ok (ProtectedRegions.restore ["x".toList] (resolveConditionals .braces []
        ((single []).substitution.apply (placeholder 0 ++ placeholder 0) []))), ["t"]) :=
    renderFresh_single rfl rfl (by decide +kernel) (List.isEmpty_iff.mp (by decide +kernel))
      (List.isEmpty_iff.mp (by decide +kernel)) (List.isEmpty_iff.mp (by decide +kernel))
      (List.isEmpty_iff.mp (by decide +kernel)) (List.isEmpty_iff.mp (by decide +kernel)) []
  rw [render_uncached rfl _ _ (by decide)]
  intro h
  have := Except.ok.inj ((congrArg Prod.fst hfresh).symm.trans h)
  revert this
  decide +kernel

end Engine

end Stencil
