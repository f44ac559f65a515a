import RelPlan.Config.Text
import RelPlan.Proofs.Toml.Tables

/-! # Saved configurations are loaded back

What is absent from a file has its default, so a setting that were not read back would be reset
without an error. The file of a configuration holds two tables of settings (`Config.read?_save`), and
each setting is found there under its name (`Config.load_saved`). -/

namespace RelPlan

open Toml

/-- The numbers have 64 bits with a sign, and at least one iteration is allowed. -/
structure Config.Storable (c : Config) : Prop where
  maxFileSize : c.log.maxFileSize < 2 ^ 63
  maxFiles : c.log.maxFiles < 2 ^ 63
  maxIterations : c.rewrite.maxIterations < 2 ^ 63
  iterates : c.rewrite.maxIterations ≠ 0

namespace Toml

theorem natural?_integer {n : Nat} (h : n < 2 ^ 63) : natural? (.integer n) = some n := by
  have hlt : (n : Int) < UInt64.size := by
    have hsize : UInt64.size = 2 ^ 64 := rfl
    omega
  rw [natural?, if_pos ⟨Int.natCast_nonneg n, hlt⟩, Int.toNat_natCast]

theorem strings?_array (items : List String) :
    strings? (.array (items.map .string)) = some items := by
  rw [strings?]
  induction items with
  | nil => rfl
  | cons s items ih => simp [string?, ih]

theorem find?_of_nodup {ms : Members} (h : (ms.map Prod.fst).Nodup) :
    ∀ m ∈ ms, find? ms m.1 = some m.2 := by
  induction ms with
  | nil => nofun
  | cons m ms ih =>
    obtain ⟨name, t⟩ := m
    obtain ⟨hm, hnodup⟩ := List.nodup_cons.mp h
    refine List.forall_mem_cons.mpr ⟨by simp [find?], fun m' hm' => ?_⟩
    have hne : (m'.1 == name) = false :=
      beq_false_of_ne fun heq => hm (List.mem_map.mpr ⟨m', hm', heq⟩)
    simp only [find?, List.lookup_cons, hne]
    exact ih hnodup m' hm'

/-- All members of a table are found under their names. -/
theorem namedSettings?_of_nodup {ms : Members} (h : (ms.map Prod.fst).Nodup) :
    namedSettings? (ms.map Prod.fst) ms = some (ms.map fun m => some m.2) := by
  have hknown {unknown : String × Toml → Bool} (h : ∀ m ∈ ms, unknown m = false) :
      ms.filter unknown = [] :=
    List.filter_eq_nil_iff.mpr fun m hm => Bool.eq_false_iff.mp (h m hm)
  rw [namedSettings?, hknown fun m hm => by simpa using ⟨m.2, hm⟩, membersInRange, if_pos rfl,
    List.map_map]
  exact congrArg some (List.map_congr_left (find?_of_nodup h))

end Toml

/-- The settings in the table of a file. -/
def LogSettings.settings (l : LogSettings) : List Setting := [
  ⟨"level", quoted l.level, .string l.level⟩,
  ⟨"dir", quoted l.dir, .string l.dir⟩,
  ⟨"file", quoted l.file, .string l.file⟩,
  ⟨"max_file_size", Nat.toDigits 10 l.maxFileSize, .integer l.maxFileSize⟩,
  ⟨"max_files", Nat.toDigits 10 l.maxFiles, .integer l.maxFiles⟩]

def RewriteSettings.settings (r : RewriteSettings) : List Setting := [
  ⟨"max_iterations", Nat.toDigits 10 r.maxIterations, .integer r.maxIterations⟩,
  ⟨"fail_fast", booleanText r.failFast, .boolean r.failFast⟩,
  ⟨"disabled_rules", strings r.disabledRules, .array (r.disabledRules.map .string)⟩]

/-- The tables of a file. -/
def Config.tables (c : Config) : Members := [
  ("log", .table .header (c.log.settings.map Setting.member)),
  ("rewrite", .table .header (c.rewrite.settings.map Setting.member))]

theorem LogSettings.written_settings (l : LogSettings) :
    ∀ s ∈ l.settings, Bare s.name ∧ Written s.chars s.value := by
  simp only [settings, List.forall_mem_cons]
  exact ⟨⟨by decide, written_string _⟩, ⟨by decide, written_string _⟩,
    ⟨by decide, written_string _⟩, ⟨by decide, written_natural _⟩,
    ⟨by decide, written_natural _⟩, nofun⟩

theorem LogSettings.nodup_settings (l : LogSettings) :
    ((l.settings.map Setting.member).map Prod.fst).Nodup := by
  simp [settings, Setting.member]

theorem RewriteSettings.written_settings (r : RewriteSettings) :
    ∀ s ∈ r.settings, Bare s.name ∧ Written s.chars s.value := by
  simp only [settings, List.forall_mem_cons]
  exact ⟨⟨by decide, written_natural _⟩, ⟨by decide, written_boolean _⟩,
    ⟨by decide, written_strings _⟩, nofun⟩

theorem RewriteSettings.nodup_settings (r : RewriteSettings) :
    ((r.settings.map Setting.member).map Prod.fst).Nodup := by
  simp [settings, Setting.member]

theorem LogSettings.ofToml?_eq {l : LogSettings} {t level dir file maxFileSize maxFiles : Toml}
    (ht : settings? ["level", "dir", "file", "max_file_size", "max_files"] t =
      some [some level, some dir, some file, some maxFileSize, some maxFiles])
    (hlevel : string? level = some l.level) (hdir : string? dir = some l.dir)
    (hfile : string? file = some l.file) (hsize : natural? maxFileSize = some l.maxFileSize)
    (hfiles : natural? maxFiles = some l.maxFiles) : LogSettings.ofToml? t = some l := by
  simp only [ofToml?, ht, Option.bind_eq_bind, Option.bind_some, setting, hlevel, hdir, hfile, hsize,
    hfiles]
  rfl

theorem RewriteSettings.ofToml?_eq {r : RewriteSettings}
    {t maxIterations failFast disabledRules : Toml}
    (ht : settings? ["max_iterations", "fail_fast", "disabled_rules"] t =
      some [some maxIterations, some failFast, some disabledRules])
    (hmax : natural? maxIterations = some r.maxIterations)
    (hfast : boolean? failFast = some r.failFast)
    (hdisabled : strings? disabledRules = some r.disabledRules) :
    RewriteSettings.ofToml? t = some r := by
  simp only [ofToml?, ht, Option.bind_eq_bind, Option.bind_some, setting, hmax, hfast, hdisabled]
  rfl

theorem LogSettings.ofToml?_settings {l : LogSettings} (hsize : l.maxFileSize < 2 ^ 63)
    (hfiles : l.maxFiles < 2 ^ 63) :
    LogSettings.ofToml? (.table .header (l.settings.map Setting.member)) = some l :=
  ofToml?_eq (namedSettings?_of_nodup l.nodup_settings) rfl rfl rfl (natural?_integer hsize)
    (natural?_integer hfiles)

theorem RewriteSettings.ofToml?_settings {r : RewriteSettings} (h : r.maxIterations < 2 ^ 63) :
    RewriteSettings.ofToml? (.table .header (r.settings.map Setting.member)) = some r :=
  ofToml?_eq (namedSettings?_of_nodup r.nodup_settings) (natural?_integer h) rfl (strings?_array _)

namespace Config

theorem ofToml?_eq {c : Config} {ms : Members} {log rewrite : Toml}
    (hms : namedSettings? ["log", "rewrite"] ms = some [some log, some rewrite])
    (hlog : LogSettings.ofToml? log = some c.log)
    (hrewrite : RewriteSettings.ofToml? rewrite = some c.rewrite) : ofToml? ms = some c := by
  simp only [ofToml?, hms, Option.bind_eq_bind, Option.bind_some, setting, hlog, hrewrite]
  rfl

theorem ofToml?_tables {c : Config} (h : c.Storable) : ofToml? c.tables = some c :=
  ofToml?_eq (namedSettings?_of_nodup (show (c.tables.map Prod.fst).Nodup by simp [tables]))
    (LogSettings.ofToml?_settings h.maxFileSize h.maxFiles)
    (RewriteSettings.ofToml?_settings h.maxIterations)

theorem chars_eq (c : Config) : c.chars =
    header "log" ++ (c.log.settings.flatMap Setting.line ++
      '\n' :: (header "rewrite" ++ (c.rewrite.settings.flatMap Setting.line ++ []))) := by
  simp [chars, LogSettings.settings, RewriteSettings.settings, Setting.line]

/-- A saved configuration is a document of two tables. -/
theorem read?_save (c : Config) : Toml.read? c.save = some c.tables := by
  obtain ⟨fuel, hfuel⟩ : ∃ k, c.chars.length + 1 =
      k + 1 + c.rewrite.settings.length + 1 + c.log.settings.length + 1 := by
    refine ⟨c.chars.length + 1 - 11, ?_⟩
    simp [chars, header, line, LogSettings.settings, RewriteSettings.settings]
  have hread : readLines [] [] (c.chars.length + 1) c.chars = some c.tables := by
    rw [hfuel, chars_eq,
      readLines_table (by decide) (by decide) c.log.written_settings c.log.nodup_settings,
      readLines_newline,
      readLines_table (by decide) (by simp) c.rewrite.written_settings c.rewrite.nodup_settings]
    rfl
  -- The text starts with a bracket, so there is no byte order mark to pass over.
  obtain ⟨cs, hcs⟩ : ∃ cs, c.chars = '[' :: cs := ⟨_, by rw [chars_eq]; rfl⟩
  rw [hcs] at hread
  rw [Toml.read?, save, String.toList_ofList, hcs]
  exact hread

/-- A saved configuration is loaded as it has been, whatever characters its texts have. -/
theorem load_saved {c : Config} (h : c.Storable) : load c.save = .ok c := by
  rw [load, read?_save, Option.bind_some, ofToml?_tables h]
  exact if_neg h.iterates

/-- Texts in all styles, with quotes, line ends and control characters, and empty ones. -/
def awkward : Config where
  log := {
    level := "C:\\logs"
    dir := "say \"\"\"\"\"\n\x27\x27\x27\\"
    file := ""
    maxFileSize := 2 ^ 63 - 1
    maxFiles := 0 }
  rewrite := {
    maxIterations := 1
    disabledRules := ["", "\ttab", "\r\n", "it\x27s \\ \"\n", "\x7f\u2028é😀"] }

theorem load_saved_awkward : awkward.Storable ∧ load awkward.save = .ok awkward :=
  have h : awkward.Storable := ⟨by decide, by decide, by decide, by decide⟩
  ⟨h, load_saved h⟩

end Config
end RelPlan
