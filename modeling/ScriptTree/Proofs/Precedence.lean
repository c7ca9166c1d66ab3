import ScriptTree.Command.Run
import ScriptTree.Proofs.Settings.File

/-! Which settings a run has. Of several files the last one that is accepted and says something of a setting
decides, and the arguments count before all files. -/
namespace ScriptTree

namespace Settings

/-- The settings of several files, later ones over earlier ones. -/
def ofLayers (layers : List (Option (List UInt8))) : Settings :=
  layers.foldl (fun s layer => s.merge (ofFile layer)) {}

/-- Whether the last accepted file that sets `k` sets it to `x`. -/
def LastSet (layers : List (Option (List UInt8))) (k : Setting) (x : k.Value) : Prop :=
  ∃ before layer after s, layers = before ++ layer :: after ∧ Accepted layer s ∧ s.get? k = some x ∧
    ∀ later ∈ after, ∀ t, Accepted later t → t.get? k = none

theorem get?_merge (below above : Settings) (k : Setting) :
    (below.merge above).get? k = (above.get? k).or (below.get? k) := by
  cases k <;> rfl

@[simp] theorem get?_empty (k : Setting) : ({} : Settings).get? k = none := by
  cases k <;> rfl

@[simp] theorem merge_empty (s : Settings) : s.merge {} = s := by
  apply ext_get?
  intro k
  rw [get?_merge, get?_empty, Option.none_or]

@[simp] theorem empty_merge (s : Settings) : ({} : Settings).merge s = s := by
  apply ext_get?
  intro k
  rw [get?_merge, get?_empty, Option.or_none]

theorem ofFile_of_accepted {layer : Option (List UInt8)} {s : Settings} (h : Accepted layer s) :
    ofFile layer = s := by
  rw [ofFile, accepted_iff.1 h, Option.getD_some]

theorem ofFile_of_refused {layer : Option (List UInt8)} (h : Refused layer) : ofFile layer = {} := by
  have hnone : layer.bind ofBytes? = none := by
    rw [Option.eq_none_iff_forall_ne_some]
    intro s hs
    exact refused_iff.1 h ⟨s, accepted_iff.2 hs⟩
  rw [ofFile, hnone, Option.getD_none]

theorem refused_of_ofBytes? {layer : Option (List UInt8)} (h : layer.bind ofBytes? = none) :
    Refused layer := by
  rw [refused_iff]
  rintro ⟨s, hs⟩
  rw [accepted_iff, h] at hs
  contradiction

theorem get?_ofFile_eq_some_iff {layer : Option (List UInt8)} {k : Setting} {x : k.Value} :
    (ofFile layer).get? k = some x ↔ ∃ s, Accepted layer s ∧ s.get? k = some x := by
  simp only [accepted_iff, ofFile]
  cases layer.bind ofBytes? <;> simp

theorem get?_ofFile_eq_none_iff {layer : Option (List UInt8)} {k : Setting} :
    (ofFile layer).get? k = none ↔ ∀ s, Accepted layer s → s.get? k = none := by
  simp only [accepted_iff, ofFile]
  cases layer.bind ofBytes? <;> simp

/-- Files after the first ones: the settings go from the last file to the first. -/
theorem get?_foldl (layers : List (Option (List UInt8))) (s : Settings) (k : Setting) :
    (layers.foldl (fun s layer => s.merge (ofFile layer)) s).get? k =
      (layers.reverse.findSome? fun layer => (ofFile layer).get? k).or (s.get? k) := by
  induction layers generalizing s with
  | nil => rfl
  | cons layer layers ih =>
    rw [List.foldl_cons, ih, get?_merge, List.reverse_cons, List.findSome?_append,
      List.findSome?_singleton, Option.or_assoc]

theorem get?_ofLayers (layers : List (Option (List UInt8))) (k : Setting) :
    (ofLayers layers).get? k = layers.reverse.findSome? fun layer => (ofFile layer).get? k := by
  rw [ofLayers, get?_foldl, get?_empty, Option.or_none]

theorem get?_ofLayers_eq_some_iff {layers : List (Option (List UInt8))} {k : Setting} {x : k.Value} :
    (ofLayers layers).get? k = some x ↔ LastSet layers k x := by
  rw [get?_ofLayers, List.findSome?_eq_some_iff]
  simp only [get?_ofFile_eq_some_iff, get?_ofFile_eq_none_iff]
  constructor
  · rintro ⟨after, layer, before, hsplit, ⟨s, hs, hx⟩, hafter⟩
    have hlayers : layers = before.reverse ++ layer :: after.reverse := by
      rw [← List.reverse_reverse layers, hsplit]
      simp
    exact ⟨_, layer, _, s, hlayers, hs, hx, fun later hl => hafter later (List.mem_reverse.1 hl)⟩
  · rintro ⟨before, layer, after, s, rfl, hs, hx, hafter⟩
    refine ⟨after.reverse, layer, before.reverse, by simp, ⟨s, hs, hx⟩, ?_⟩
    exact fun later hl => hafter later (List.mem_reverse.1 hl)

theorem get?_ofLayers_eq_none_iff {layers : List (Option (List UInt8))} {k : Setting} :
    (ofLayers layers).get? k = none ↔
      ∀ layer ∈ layers, ∀ s, Accepted layer s → s.get? k = none := by
  rw [get?_ofLayers, List.findSome?_eq_none_iff]
  simp only [get?_ofFile_eq_none_iff, List.mem_reverse]

theorem get?_ofLayers_append (layers more : List (Option (List UInt8))) (k : Setting) :
    (ofLayers (layers ++ more)).get? k = ((ofLayers more).get? k).or ((ofLayers layers).get? k) := by
  simp only [get?_ofLayers, List.reverse_append, List.findSome?_append]

theorem ofLayers_singleton (layer : Option (List UInt8)) : ofLayers [layer] = ofFile layer := by
  rw [ofLayers, List.foldl_cons, List.foldl_nil, empty_merge]

theorem ofLayers_refused (before after : List (Option (List UInt8))) {layer : Option (List UInt8)}
    (h : Refused layer) : ofLayers (before ++ layer :: after) = ofLayers (before ++ after) := by
  simp only [ofLayers, List.foldl_append, List.foldl_cons, ofFile_of_refused h, merge_empty]

end Settings

namespace Command

/-- The contents of a file, if it can be read. -/
def layerAt (host : Host Id) (path : String) : Option (List UInt8) :=
  (host.readFile path).toOption

/-- The settings file of the user, if there is a directory for it. -/
def userLayers (host : Host Id) : List (Option (List UInt8)) :=
  match host.configHome, host.home with
  | some directory, _ => [layerAt host (join (join directory "ecmatree") "config.toml")]
  | none, some home => [layerAt host (join (join (join home ".config") "ecmatree") "config.toml")]
  | none, none => []

def projectLayer (host : Host Id) : Option (List UInt8) := layerAt host ".ecmatree/config.toml"

/-- The settings files of a run, the ones that count more behind the others. -/
def fileLayers (host : Host Id) (a : Arguments) : List (Option (List UInt8)) :=
  match a.config with
  | some path => [layerAt host path]
  | none => userLayers host ++ [projectLayer host]

theorem settingsAt_eq (host : Host Id) (path : String) :
    settingsAt host path = Settings.ofFile (layerAt host path) := by
  unfold settingsAt layerAt
  cases host.readFile path <;> rfl

theorem userLayers_eq (host : Host Id) : userLayers host = (userFile? host).toList.map (layerAt host) := by
  unfold userLayers userFile?
  cases host.configHome with
  | some directory => rfl
  | none => cases host.home <;> rfl

theorem fileSettings_eq (host : Host Id) (a : Arguments) :
    fileSettings host a = Settings.ofLayers (fileLayers host a) := by
  unfold fileSettings fileLayers projectLayer
  rw [userLayers_eq]
  cases a.config with
  | some path =>
    rw [Settings.ofLayers_singleton]
    exact settingsAt_eq host path
  | none =>
    cases userFile? host with
    | none =>
      rw [Option.toList_none, List.map_nil, List.nil_append, Settings.ofLayers_singleton, ← settingsAt_eq]
      exact Settings.empty_merge _
    | some path =>
      rw [Settings.ofLayers, Option.toList_some, List.map_singleton, List.cons_append, List.nil_append,
        List.foldl_cons, List.foldl_cons, List.foldl_nil, Settings.empty_merge, ← settingsAt_eq,
        ← settingsAt_eq]
      rfl

theorem settings_eq (host : Host Id) (a : Arguments) :
    settings host a = (Settings.ofLayers (fileLayers host a)).merge a.settings := by
  rw [← fileSettings_eq]
  rfl

theorem fileLayers_of_config (host : Host Id) {a : Arguments} {path : String}
    (h : a.config = some path) : fileLayers host a = [layerAt host path] := by
  rw [fileLayers, h]

/-- Each file that is accepted decides what it sets, the later one before the earlier one, and the arguments
decide before all files. -/
theorem settings_precedence (layers : List (Option (List UInt8))) (host : Host Id) (a : Arguments) :
    (∀ k x, (Settings.ofLayers layers).get? k = some x ↔ Settings.LastSet layers k x) ∧
    (∀ k, (Settings.ofLayers layers).get? k = none ↔
      ∀ layer ∈ layers, ∀ s, Settings.Accepted layer s → s.get? k = none) ∧
    (∀ layer, Settings.Refused layer ↔ ¬∃ s, Settings.Accepted layer s) ∧
    (∀ before layer after, Settings.Refused layer →
      Settings.ofLayers (before ++ layer :: after) = Settings.ofLayers (before ++ after)) ∧
    (Settings.LastSet layers .dialect .auto → (Settings.ofLayers layers).options.dialect = none) ∧
    (∀ dialect, Settings.LastSet layers .dialect (.fixed dialect) →
      (Settings.ofLayers layers).options.dialect = some dialect) ∧
    settings host a =
      { strategy := if a.fallback then some .fallback else (Settings.ofLayers (fileLayers host a)).strategy
        dialect := a.dialect.or (Settings.ofLayers (fileLayers host a)).dialect
        plainTree := a.plainTree.or (Settings.ofLayers (fileLayers host a)).plainTree
        offsets := a.offsets.or (Settings.ofLayers (fileLayers host a)).offsets
        pretty := if a.pretty then some true else (Settings.ofLayers (fileLayers host a)).pretty } ∧
    (∀ path, a.config = some path →
      (∀ other : Host Id, other.readFile path = host.readFile path →
        settings other a = settings host a) ∧
      (∀ s, Settings.Accepted (layerAt host path) s → settings host a = s.merge a.settings) ∧
      (Settings.Refused (layerAt host path) → settings host a = a.settings)) ∧
    (a.config = none → ∀ k,
      (Settings.ofLayers (fileLayers host a)).get? k =
        ((Settings.ofLayers [projectLayer host]).get? k).or ((Settings.ofLayers (userLayers host)).get? k)) := by
  have hdialect {choice : DialectChoice} (hlast : Settings.LastSet layers .dialect choice) :
      (Settings.ofLayers layers).options.dialect = choice.forced? := by
    have hset : (Settings.ofLayers layers).dialect = some choice :=
      Settings.get?_ofLayers_eq_some_iff (k := .dialect) |>.2 hlast
    rw [Settings.options, hset, Option.bind_some]
  refine ⟨fun k x => Settings.get?_ofLayers_eq_some_iff, fun k => Settings.get?_ofLayers_eq_none_iff,
    fun layer => Settings.refused_iff, fun before layer after => Settings.ofLayers_refused before after,
    hdialect, fun _ => hdialect, ?_, ?_, ?_⟩
  · rw [settings_eq, Settings.merge, Arguments.settings]
    cases a.fallback <;> cases a.pretty <;> rfl
  · intro path hpath
    have hlayers := fileLayers_of_config host hpath
    refine ⟨?_, ?_, ?_⟩
    · intro other hother
      have hsame : layerAt other path = layerAt host path := by
        rw [layerAt, layerAt, hother]
      rw [settings_eq, settings_eq, hlayers, fileLayers_of_config other hpath, hsame]
    · intro s hs
      rw [settings_eq, hlayers, Settings.ofLayers_singleton, Settings.ofFile_of_accepted hs]
    · intro hrefused
      rw [settings_eq, hlayers, Settings.ofLayers_singleton, Settings.ofFile_of_refused hrefused,
        Settings.empty_merge]
  · intro hnone k
    rw [fileLayers, hnone]
    exact Settings.get?_ofLayers_append _ _ k

/-- A file with something for every setting. -/
def prescribing : List UInt8 :=
  Text.toUtf8 ("[detect]\nstrategy = \"fallback\"\ndialect = \"javascript\"\n" ++
    "[output]\nplain_tree = \"normalized\"\noffsets = \"utf8\"\npretty = true\n").toList

/-- A file that leaves the dialect open and has another unit, which is written as a table. -/
def releasing : List UInt8 :=
  Text.toUtf8 "[detect]\ndialect = \"auto\"\n[output]\noffsets = \x7bchars = \x7b\x7d\x7d\n".toList

/-- A file that is right in one setting and wrong in another. -/
def halfRight : List UInt8 := Text.toUtf8 "[output]\npretty = false\noffsets = \"bytes\"\n".toList

/-- A file that is no document. -/
def brokenOff : List UInt8 := Text.toUtf8 "[output]\npretty =".toList

/-- Surroundings with a file of the user and one of the project. -/
def bothFiles : Host Id where
  readFile path :=
    if path = "/settings/ecmatree/config.toml" then .ok prescribing
    else if path = ".ecmatree/config.toml" then .ok releasing
    else .error .notFound
  readInput := .ok []
  configHome := some "/settings"
  home := none

theorem mixed_settings_precedence :
    let layers := [some prescribing, some halfRight, none, some [0xFF], some brokenOff, some releasing]
    (Settings.LastSet layers .strategy .fallback ∧ Settings.LastSet layers .dialect .auto ∧
      Settings.LastSet layers .plainTree .normalized ∧ Settings.LastSet layers .offsets .chars ∧
      Settings.LastSet layers .pretty true) ∧
    (Settings.LastSet [some prescribing] .dialect (.fixed .plain) ∧
      (Settings.ofLayers [some prescribing]).options.dialect = some .plain ∧
      (Settings.ofLayers layers).options.dialect = none) ∧
    (Settings.Refused (some halfRight) ∧ Settings.Refused none ∧ Settings.Refused (some [0xFF]) ∧
      Settings.Refused (some brokenOff) ∧
      Settings.ofLayers layers =
        Settings.ofLayers [some prescribing, none, some [0xFF], some brokenOff, some releasing]) ∧
    settings bothFiles { offsets := some .utf16 } =
      { strategy := some .fallback, dialect := some .auto, plainTree := some .normalized,
        offsets := some .utf16, pretty := some true } ∧
    settings bothFiles { config := some "/settings/ecmatree/config.toml" } =
      { strategy := some .fallback, dialect := some (.fixed .plain), plainTree := some .normalized,
        offsets := some .utf8, pretty := some true } ∧
    settings bothFiles { config := some "other.toml", pretty := true } = { pretty := some true } := by
  intro layers
  have hfirst : Settings.Accepted (some prescribing)
      { strategy := some .fallback, dialect := some (.fixed .plain), plainTree := some .normalized,
        offsets := some .utf8, pretty := some true } := Settings.accepted_iff.2 (by decide +kernel)
  have hlater : Settings.Accepted (some releasing)
      { dialect := some .auto, offsets := some .chars } := Settings.accepted_iff.2 (by decide +kernel)
  have hhalf : Settings.Refused (some halfRight) := Settings.refused_of_ofBytes? (by decide +kernel)
  have hbytes : Settings.Refused (some [0xFF]) := Settings.refused_of_ofBytes? (by decide +kernel)
  have hbroken : Settings.Refused (some brokenOff) := Settings.refused_of_ofBytes? (by decide +kernel)
  have hboth : Settings.ofLayers [some prescribing, some releasing] =
      { strategy := some .fallback, dialect := some .auto, plainTree := some .normalized,
        offsets := some .chars, pretty := some true } := by
    simp only [Settings.ofLayers, List.foldl_cons, List.foldl_nil, Settings.ofFile_of_accepted hfirst,
      Settings.ofFile_of_accepted hlater]
    rfl
  have hall : Settings.ofLayers layers = Settings.ofLayers [some prescribing, some releasing] := by
    simp only [layers, Settings.ofLayers, List.foldl_cons, List.foldl_nil, Settings.ofFile_of_refused hhalf,
      Settings.ofFile_of_refused .missing, Settings.ofFile_of_refused hbytes,
      Settings.ofFile_of_refused hbroken, Settings.merge_empty]
  obtain ⟨hlast, -, -, hskip, hauto, -, hflags, -, -⟩ :=
    settings_precedence layers bothFiles { offsets := some .utf16 }
  obtain ⟨-, -, -, -, -, hfixed, -, hgiven, -⟩ :=
    settings_precedence [some prescribing] bothFiles { config := some "/settings/ecmatree/config.toml" }
  obtain ⟨-, -, -, -, -, -, -, hother, -⟩ :=
    settings_precedence layers bothFiles { config := some "other.toml", pretty := true }
  have hset (k : Setting) (x : k.Value) : _ → Settings.LastSet layers k x := (hlast k x).1
  rw [hall, hboth] at hset
  have hdialect : Settings.LastSet [some prescribing] .dialect (.fixed .plain) :=
    ⟨[], _, [], _, rfl, hfirst, rfl, nofun⟩
  refine ⟨⟨hset .strategy _ rfl, hset .dialect _ rfl, hset .plainTree _ rfl, hset .offsets _ rfl,
    hset .pretty _ rfl⟩, ⟨hdialect, hfixed _ hdialect, hauto (hset .dialect _ rfl)⟩,
    ⟨hhalf, .missing, hbytes, hbroken, hskip [some prescribing] _ _ hhalf⟩, ?_, ?_, ?_⟩
  · have hfiles : fileLayers bothFiles { offsets := some .utf16 } = [some prescribing, some releasing] := rfl
    rw [hflags, hfiles, hboth]
    rfl
  · obtain ⟨-, haccepted, -⟩ := hgiven _ rfl
    exact haccepted _ hfirst
  · obtain ⟨-, -, hmissing⟩ := hother _ rfl
    exact hmissing .missing

end Command

end ScriptTree
