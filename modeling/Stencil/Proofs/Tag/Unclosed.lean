import Stencil.Proofs.Composition.Step

/-!
# Texts without closing tags

Where no closing tag of a construct is found, there is none of the construct: its opening tags stay
as they are, and the pass that looks for it leaves the text alone. A template without tags of any
construct but conditionals is rendered by substitution and by these alone.
-/

namespace Stencil

namespace Tag

variable {α κ : Type}

/-- A grammar that is found nowhere in a text is found nowhere in the end of it. -/
theorem scanFrom_suffix {r : Recognizer α} {s t : Text} (ht : t <:+ s) {pos : Nat}
    (h : scanFrom r pos 0 s = []) (pos' : Nat) : scanFrom r pos' 0 t = [] := by
  have hmove : ∀ {s pos}, scanFrom r pos 0 s = [] → ∀ pos', scanFrom r pos' 0 s = [] := by
    intro s
    induction s with
    | nil => intros; rfl
    | cons c s ih =>
      intro pos h pos'
      rw [scanFrom] at h ⊢
      split at h
      · exact absurd h (by simp)
      · exact ih h _
  induction s generalizing pos with
  | nil =>
    obtain rfl := List.suffix_nil.mp ht
    rfl
  | cons c s ih =>
    rcases List.suffix_cons_iff.mp ht with rfl | ht
    · exact hmove h pos'
    · rw [scanFrom] at h
      split at h
      · exact absurd h (by simp)
      · exact ih ht h

theorem closing?_eq_none [DecidableEq κ] {opening closing : Recognizer κ} {s : Text}
    (h : scan closing s = []) (key : κ) (pos : Nat) :
    closing? opening closing key s pos = none := by
  have hopenings : ∀ (ts : List (Tag κ)) depth,
      Edge.unmatched? depth (ts.map .opening) = none := by
    intro ts
    induction ts with
    | nil => intro depth; rfl
    | cons t ts ih => intro depth; exact ih _
  rw [closing?, Edge.edges, scanFrom_suffix (List.drop_suffix pos s) h]
  simpa using hopenings _ 0

theorem outermost_eq_nil {close? : Tag α → Option (Tag κ)} (h : ∀ t, close? t = none) (cursor : Nat)
    (ts : List (Tag α)) : outermost close? cursor ts = [] := by
  induction ts with
  | nil => rfl
  | cons t ts ih => rw [outermost, h t, ih, ite_self]

end Tag

variable {d : Delimiters} {s : Text}

theorem Blocks.resolve_blockless (h : Blocks.outermost d s = []) (definitions : Blocks)
    (active : List String) : Blocks.resolve d definitions active s = s := by
  rw [Blocks.resolve]
  split
  · rename_i hs
    rw [hs]
  · simp [h, Text.splice, Text.spliceFrom]

theorem Blocks.outermost_unclosed (h : Tag.scan d.blockClosing s = []) :
    Blocks.outermost d s = [] :=
  Tag.outermost_eq_nil (fun t => Tag.closing?_eq_none h () t.stop) 0 _

theorem Blocks.resolve_unclosed (h : Tag.scan d.blockClosing s = []) (definitions : Blocks)
    (active : List String) : Blocks.resolve d definitions active s = s :=
  Blocks.resolve_blockless (Blocks.outermost_unclosed h) definitions active

theorem expandLoops_loopless (h : Loop.outermost d s = []) (render : Text → Context → Text)
    (ctx : Context) : expandLoops d render s ctx = s := by
  rw [expandLoops]
  split
  · rename_i hs
    rw [hs]
  · simp [h, Text.splice, Text.spliceFrom]

theorem expandLoops_unclosed (hbound : Tag.scan d.loopClosing s = [])
    (hlegacy : Tag.scan d.legacyClosing s = []) (render : Text → Context → Text) (ctx : Context) :
    expandLoops d render s ctx = s := by
  refine expandLoops_loopless (Tag.outermost_eq_nil (fun t => ?_) 0 _) render ctx
  unfold Loop.closing?
  split
  · exact Tag.closing?_eq_none hbound _ _
  · exact Tag.closing?_eq_none hlegacy _ _

theorem ProtectedRegions.extract_unprotected (h : Tag.scan d.protectedRegion s = [])
    (regions : ProtectedRegions) : extract d regions s = (s, regions) := by
  rw [extract, h]
  exact Prod.ext rfl (List.append_nil regions)

namespace Engine

variable {e : Engine} {disk : Disk}

/-- What is done to a text without loops. -/
theorem process_unclosed (hplugins : e.plugins = [])
    (hbound : Tag.scan e.delimiters.loopClosing s = [])
    (hlegacy : Tag.scan e.delimiters.legacyClosing s = []) (ctx : Context) (isDocument : Bool) :
    e.process ctx isDocument s =
      resolveConditionals e.delimiters ctx (e.substitution.apply s ctx) := by
  rw [process, expandLoops_unclosed hbound hlegacy, hplugins]
  cases isDocument <;> rfl

/-- Composing a template whose source names no other template and has no blocks. -/
theorem compose_blockless {name : String} {ancestry : Ancestry} (hname : name ∉ ancestry)
    (hload : Loader.loadFirst disk e.allLoaders name = .ok s) {p : Progress} {text : Text}
    {regions : ProtectedRegions}
    (hextract : ProtectedRegions.extract e.delimiters p.regions s = (text, regions))
    (hincludes : Tag.scan e.delimiters.includeTag text = [])
    (hbase : Tag.scan e.delimiters.baseTag text = [])
    (hblocks : Blocks.outermost e.delimiters text = []) (ctx : Context) (fuel : Nat)
    (definitions : Blocks) :
    e.compose disk ctx (fuel + 1) ancestry definitions name p =
      (.ok text, ⟨regions, p.requests ++ [name]⟩) := by
  have hsplice : text.splice [] = text := rfl
  rw [compose_loaded hname hload hextract, hincludes]
  simp only [runAll, andThen, hsplice]
  rw [finish, hbase]
  simp only [List.head?_nil]
  rw [Blocks.resolve_blockless hblocks]

theorem compose_single {name : String} {ancestry : Ancestry} (hname : name ∉ ancestry)
    (hload : Loader.loadFirst disk e.allLoaders name = .ok s) {p : Progress} {text : Text}
    {regions : ProtectedRegions}
    (hextract : ProtectedRegions.extract e.delimiters p.regions s = (text, regions))
    (hincludes : Tag.scan e.delimiters.includeTag text = [])
    (hbase : Tag.scan e.delimiters.baseTag text = [])
    (hblocks : Tag.scan e.delimiters.blockClosing text = []) (ctx : Context) (fuel : Nat)
    (definitions : Blocks) :
    e.compose disk ctx (fuel + 1) ancestry definitions name p =
      (.ok text, ⟨regions, p.requests ++ [name]⟩) :=
  compose_blockless hname hload hextract hincludes hbase
    (Blocks.outermost_unclosed hblocks) ctx fuel
    definitions

/-- Composing a template that includes one other, which names none and has no blocks. -/
theorem compose_including {ctx : Context} {name : String} {source included : Text} {t : Tag String}
    (hname : t.content ≠ name) (hload : Loader.loadFirst disk e.allLoaders name = .ok source)
    (hextract : ProtectedRegions.extract e.delimiters [] source = (source, []))
    (htag : Tag.scan e.delimiters.includeTag source = [t])
    (hpartial : Loader.loadFirst disk e.allLoaders t.content = .ok s)
    (hplain : ProtectedRegions.extract e.delimiters [] s = (s, []))
    (hincludes : Tag.scan e.delimiters.includeTag s = [])
    (hbase : Tag.scan e.delimiters.baseTag s = [])
    (hblocks : Tag.scan e.delimiters.blockClosing s = [])
    (hprocess : e.process ctx false s = included) (fuel : Nat) :
    e.compose disk ctx (fuel + 2) [] [] name {} =
      e.finish disk ctx (fuel + 1) [name] [] (source.splice [⟨t.start, t.stop, included⟩])
        ⟨[], [name, t.content]⟩ := by
  have hcompose : e.compose disk ctx (fuel + 1) [name] [] t.content ⟨[], [name]⟩ =
      (.ok s, ⟨[], [name, t.content]⟩) :=
    compose_single (by simpa using hname) hpartial hplain hincludes hbase hblocks ctx fuel []
  have hinclude : e.includeTemplate disk ctx (fuel + 1) [name] t ⟨[], [name]⟩ =
      (.ok ⟨t.start, t.stop, included⟩, ⟨[], [name, t.content]⟩) := by
    rw [includeTemplate, bind_run, hcompose, andThen, hprocess]
    rfl
  rw [compose_loaded (by simp) hload hextract, htag]
  simp only [runAll, List.nil_append, hinclude, andThen]

theorem exists_depthBound (e : Engine) (disk : Disk) : ∃ n, e.depthBound disk = n + 2 := by
  have hgrow : ∀ (loaders : List Loader) n,
      n ≤ loaders.foldl (fun n loader => n + loader.capacity disk) n := by
    intro loaders
    induction loaders with
    | nil => exact Nat.le_refl
    | cons loader loaders ih => exact fun n => Nat.le_trans (Nat.le_add_right n _) (ih _)
  obtain ⟨n, hn⟩ := Nat.exists_eq_add_of_le (hgrow e.allLoaders 2)
  exact ⟨n, by rw [depthBound, hn, Nat.add_comm]⟩

/-- A text that spells the tag of a base asks for it. -/
theorem renderFresh_misled {ctx : Context} {name : String} {text : Text}
    {t : Tag String} {err : Error} {p : Progress}
    (hcompose : ∀ fuel, e.compose disk ctx (fuel + 2) [] [] name {} =
      e.finish disk ctx (fuel + 1) [name] [] text p)
    (hbase : Tag.scan e.delimiters.baseTag text = [t]) (hname : t.content ≠ name)
    (hload : Loader.loadFirst disk e.allLoaders t.content = .error err) :
    e.renderFresh disk name ctx = (.error err, p.requests ++ [t.content]) := by
  obtain ⟨n, hn⟩ := e.exists_depthBound disk
  refine renderFresh_failed (p := ⟨p.regions, p.requests ++ [t.content]⟩) ?_
  rw [hn, hcompose, finish, hbase]
  dsimp only [List.head?_cons]
  rw [compose_succ, if_neg (by simpa using hname), request_run, hload]
  rfl

/-- A text that names no other template, and has neither blocks nor loops. -/
def isFlat (d : Delimiters) (s : Text) : Bool :=
  (Tag.scan d.includeTag s).isEmpty && (Tag.scan d.baseTag s).isEmpty &&
    (Tag.scan d.blockClosing s).isEmpty && (Tag.scan d.loopClosing s).isEmpty &&
    (Tag.scan d.legacyClosing s).isEmpty

/-- What is rendered of a template that includes another, if neither has a base, blocks or loops. -/
theorem renderFresh_including (hplugins : e.plugins = []) {ctx : Context} {name : String}
    {source included text : Text} {t : Tag String} (hname : t.content ≠ name)
    (hload : Loader.loadFirst disk e.allLoaders name = .ok source)
    (hextract : ProtectedRegions.extract e.delimiters [] source = (source, []))
    (htag : Tag.scan e.delimiters.includeTag source = [t])
    (hpartial : Loader.loadFirst disk e.allLoaders t.content = .ok s)
    (hplain : ProtectedRegions.extract e.delimiters [] s = (s, []))
    (hflat : isFlat e.delimiters s = true)
    (hincluded : resolveConditionals e.delimiters ctx (e.substitution.apply s ctx) = included)
    (hsplice : source.splice [⟨t.start, t.stop, included⟩] = text)
    (hbase : Tag.scan e.delimiters.baseTag text = [])
    (hblocks : Tag.scan e.delimiters.blockClosing text = [])
    (hbound : Tag.scan e.delimiters.loopClosing text = [])
    (hlegacy : Tag.scan e.delimiters.legacyClosing text = []) :
    (e.renderFresh disk name ctx).1 =
      .ok (resolveConditionals e.delimiters ctx (e.substitution.apply text ctx)) := by
  simp only [isFlat, Bool.and_eq_true, List.isEmpty_iff] at hflat
  obtain ⟨⟨⟨⟨hincludes, hbase'⟩, hblocks'⟩, hbound'⟩, hlegacy'⟩ := hflat
  have hprocess := (process_unclosed hplugins hbound' hlegacy' ctx false).trans hincluded
  obtain ⟨n, hn⟩ := e.exists_depthBound disk
  have hcompose :=
    compose_including hname hload hextract htag hpartial hplain hincludes hbase' hblocks'
    hprocess n
  rw [hsplice, finish, hbase] at hcompose
  dsimp only [List.head?_nil] at hcompose
  rw [Blocks.resolve_unclosed hblocks, ← hn] at hcompose
  rw [renderFresh_ok hcompose, process_unclosed hplugins hbound hlegacy]
  rfl

/-- An engine with one template and nothing else. -/
def single (source : Text) : Engine where
  sources := [("t", source)]
  cacheEnabled := false
  autoEscape := false

theorem loadFirst_single {source s : Text} {name : String}
    (h : Loader.loadFirst disk (single source).allLoaders name = .ok s) : s = source := by
  by_cases hn : "t" = name
  · simpa [allLoaders, single, Loader.loadFirst, Loader.load, Dict.get?, hn] using h.symm
  · simp [allLoaders, single, Loader.loadFirst, Loader.load, Dict.get?, hn, Error.kind] at h

/-- What becomes of a template that names no other and has no blocks. -/
theorem renderFresh_blockless {name : String}
    (hload : Loader.loadFirst disk e.allLoaders name = .ok s)
    {text : Text} {regions : ProtectedRegions}
    (hextract : ProtectedRegions.extract e.delimiters [] s = (text, regions))
    (hincludes : Tag.scan e.delimiters.includeTag text = [])
    (hbase : Tag.scan e.delimiters.baseTag text = [])
    (hblocks : Tag.scan e.delimiters.blockClosing text = []) (ctx : Context) :
    e.renderFresh disk name ctx = (.ok (regions.restore (e.process ctx true text)), [name]) := by
  obtain ⟨n, hn⟩ := e.exists_depthBound disk
  have hname : name ∉ ([] : Ancestry) := by simp
  have hcompose :=
    compose_single hname hload (p := {}) hextract hincludes hbase hblocks ctx (n + 1) []
  rw [← hn] at hcompose
  rw [renderFresh_ok hcompose]
  rfl

/-- What becomes of a template with variables and conditionals only. -/
theorem renderFresh_single (hplugins : e.plugins = []) {name : String}
    (hload : Loader.loadFirst disk e.allLoaders name = .ok s) {text : Text}
    {regions : ProtectedRegions}
    (hextract : ProtectedRegions.extract e.delimiters [] s = (text, regions))
    (hincludes : Tag.scan e.delimiters.includeTag text = [])
    (hbase : Tag.scan e.delimiters.baseTag text = [])
    (hblocks : Tag.scan e.delimiters.blockClosing text = [])
    (hbound : Tag.scan e.delimiters.loopClosing text = [])
    (hlegacy : Tag.scan e.delimiters.legacyClosing text = []) (ctx : Context) :
    e.renderFresh disk name ctx =
      (.ok (regions.restore
        (resolveConditionals e.delimiters ctx (e.substitution.apply text ctx))), [name]) := by
  rw [renderFresh_blockless hload hextract hincludes hbase hblocks,
    process_unclosed hplugins hbound hlegacy]

/-- What is rendered of a flat template. -/
theorem renderFresh_flat (hplugins : e.plugins = []) {name : String}
    (hload : Loader.loadFirst disk e.allLoaders name = .ok s)
    (hflat : isFlat e.delimiters (ProtectedRegions.extract e.delimiters [] s).1 = true)
    {ctx : Context}
    {output : Text} (houtput : (ProtectedRegions.extract e.delimiters [] s).2.restore
      (resolveConditionals e.delimiters ctx
        (e.substitution.apply (ProtectedRegions.extract e.delimiters [] s).1 ctx)) = output) :
    (e.renderFresh disk name ctx).1 = .ok output := by
  simp only [isFlat, Bool.and_eq_true, List.isEmpty_iff] at hflat
  obtain ⟨⟨⟨⟨hincludes, hbase⟩, hblocks⟩, hbound⟩, hlegacy⟩ := hflat
  have hsingle := renderFresh_single hplugins hload rfl hincludes hbase hblocks hbound hlegacy ctx
  exact (congrArg Prod.fst hsingle).trans (congrArg Except.ok houtput)

end Engine

end Stencil
