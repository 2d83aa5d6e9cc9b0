import Mathlib.Data.List.Basic

/-!
# Keys of cache entries

`CacheKey`: the prefixes of the entry, the version of the plugin, if there is one, and the key of the file,
joined with colons.
-/

namespace SonarJavascript.Cache

structure CacheKey where
  file : String
  prefixes : List String
  pluginVersion : Option String
  deriving DecidableEq, Repr

namespace CacheKey

def forFile (fileKey : String) (pluginVersion : Option String) : CacheKey :=
  ⟨fileKey, [], pluginVersion⟩

/-- Prefixes that are null are left out. -/
def withPrefix (key : CacheKey) (prefixes : List (Option String)) : CacheKey :=
  { key with prefixes := key.prefixes ++ prefixes.filterMap id }

def forCpd (key : CacheKey) : CacheKey :=
  key.withPrefix [some "js", some "cpd"]

def forUcfg (key : CacheKey) (ucfgPluginVersion : Option String) : CacheKey :=
  key.withPrefix [some "jssecurity", some "ucfgs", ucfgPluginVersion]

def forFileMetadata (key : CacheKey) : CacheKey :=
  key.withPrefix [some "js", some "filemetadata"]

def toString (key : CacheKey) : String :=
  ":".intercalate (key.prefixes ++ key.pluginVersion.toList ++ [key.file])

/-! ### The entries of a file -/

def jsonKey (key : CacheKey) (ucfgPluginVersion : Option String) : String :=
  ((key.forUcfg ucfgPluginVersion).withPrefix [some "JSON"]).toString

def seqKey (key : CacheKey) (ucfgPluginVersion : Option String) : String :=
  ((key.forUcfg ucfgPluginVersion).withPrefix [some "SEQ"]).toString

def dataKey (key : CacheKey) : String :=
  (key.forCpd.withPrefix [some "DATA"]).toString

def stringTableKey (key : CacheKey) : String :=
  (key.forCpd.withPrefix [some "STRING_TABLE"]).toString

def metadataKey (key : CacheKey) : String :=
  key.forFileMetadata.toString

example : ((forFile "src/test.js" (some "1.0.0")).jsonKey none) = "jssecurity:ucfgs:JSON:1.0.0:src/test.js" := by
  decide

/-! ### The text of a key -/

/-- The version and the file, as every entry of the file has them at the end of its key. -/
def suffix (key : CacheKey) : String :=
  ":".intercalate (key.pluginVersion.toList ++ [key.file])

theorem suffix_ne_nil (key : CacheKey) : key.pluginVersion.toList ++ [key.file] ≠ [] := by
  simp

theorem toString_eq {key : CacheKey} (h : key.prefixes ≠ []) :
    key.toString = ":".intercalate key.prefixes ++ ":" ++ key.suffix := by
  rw [toString, List.append_assoc, String.intercalate_append_of_ne_nil h key.suffix_ne_nil, suffix]

section Entries

variable (fileKey : String) (version ucfgVersion : Option String)

theorem metadataKey_eq : (forFile fileKey version).metadataKey =
    "js:filemetadata" ++ ":" ++ (forFile fileKey version).suffix :=
  toString_eq (by simp [forFileMetadata, withPrefix])

theorem dataKey_eq : (forFile fileKey version).dataKey =
    "js:cpd:DATA" ++ ":" ++ (forFile fileKey version).suffix :=
  toString_eq (by simp [forCpd, withPrefix])

theorem stringTableKey_eq : (forFile fileKey version).stringTableKey =
    "js:cpd:STRING_TABLE" ++ ":" ++ (forFile fileKey version).suffix :=
  toString_eq (by simp [forCpd, withPrefix])

/-- What the keys of the generated files begin with. -/
def ucfgPrefix : String :=
  ":".intercalate (["jssecurity", "ucfgs"] ++ ucfgVersion.toList)

theorem ucfgKey_eq (last : String) :
    (((forFile fileKey version).forUcfg ucfgVersion).withPrefix [some last]).toString =
      ucfgPrefix ucfgVersion ++ ":" ++ last ++ ":" ++ (forFile fileKey version).suffix := by
  have hprefixes : (((forFile fileKey version).forUcfg ucfgVersion).withPrefix [some last]).prefixes =
      (["jssecurity", "ucfgs"] ++ ucfgVersion.toList) ++ [last] := by
    cases ucfgVersion <;> rfl
  rw [toString_eq (by simp [hprefixes]), hprefixes,
    String.intercalate_append_of_ne_nil (by simp) (by simp), String.intercalate_singleton]
  rfl

theorem ucfgPrefix_eq : ∃ others, ucfgPrefix ucfgVersion = "jssecurity" ++ others := by
  rw [ucfgPrefix, List.cons_append, String.intercalate_cons_of_ne_nil (by simp)]
  exact ⟨_, String.append_assoc ..⟩

/-- The five entries of a file. -/
inductive EntryKind
  | seq | json | data | stringTable | metadata
  deriving DecidableEq, Repr

def entryKey (key : CacheKey) : EntryKind → String
  | .seq => key.seqKey ucfgVersion
  | .json => key.jsonKey ucfgVersion
  | .data => key.dataKey
  | .stringTable => key.stringTableKey
  | .metadata => key.metadataKey

/-- The key of an entry tells which entry it is, and what the entries of the file share. -/
theorem entryKey_injective {fileKey fileKey' : String} {version version' ucfgVersion : Option String}
    {kind kind' : EntryKind}
    (h : (forFile fileKey version).entryKey ucfgVersion kind =
      (forFile fileKey' version').entryKey ucfgVersion kind') :
    kind = kind' ∧ (forFile fileKey version).suffix = (forFile fileKey' version').suffix := by
  obtain ⟨others, hucfg⟩ := ucfgPrefix_eq ucfgVersion
  have hseq := fun f v => ucfgKey_eq f v ucfgVersion "SEQ"
  have hjson := fun f v => ucfgKey_eq f v ucfgVersion "JSON"
  cases kind <;> cases kind' <;>
    simp only [entryKey, seqKey, jsonKey, hseq, hjson, hucfg, dataKey_eq, stringTableKey_eq,
      metadataKey_eq] at h <;>
    replace h := congrArg String.toList h <;>
    simp [String.toList_inj] at h ⊢ <;>
    exact h

theorem entryKey_of_suffix {fileKey fileKey' : String} {version version' : Option String}
    (h : (forFile fileKey version).suffix = (forFile fileKey' version').suffix) (ucfgVersion : Option String)
    (kind : EntryKind) : (forFile fileKey version).entryKey ucfgVersion kind =
      (forFile fileKey' version').entryKey ucfgVersion kind := by
  have hucfg := fun last => (ucfgKey_eq fileKey version ucfgVersion last).trans
    (h ▸ (ucfgKey_eq fileKey' version' ucfgVersion last).symm)
  cases kind with
  | seq => exact hucfg "SEQ"
  | json => exact hucfg "JSON"
  | data => simp only [entryKey, dataKey_eq, h]
  | stringTable => simp only [entryKey, stringTableKey_eq, h]
  | metadata => simp only [entryKey, metadataKey_eq, h]

theorem entryKey_ne {fileKey fileKey' : String} {version version' ucfgVersion : Option String}
    {kind kind' : EntryKind} (h : kind ≠ kind' ∨
      (forFile fileKey version).suffix ≠ (forFile fileKey' version').suffix) :
    (forFile fileKey version).entryKey ucfgVersion kind ≠
      (forFile fileKey' version').entryKey ucfgVersion kind' := by
  intro heq
  obtain ⟨hkind, hsuffix⟩ := entryKey_injective heq
  exact h.elim (· hkind) (· hsuffix)

end Entries

/-! ### Versions -/

theorem version_of_suffix {fileKey : String} {version version' : Option String}
    (h : (forFile fileKey version).suffix = (forFile fileKey version').suffix) : version = version' := by
  have hlength := congrArg (fun s : String => s.toList.length) h
  cases version with
  | none =>
    cases version' with
    | none => rfl
    | some text =>
      have hmore : fileKey.toList.length = text.toList.length + (fileKey.toList.length + 1) := by
        simpa [suffix, forFile] using hlength
      omega
  | some text =>
    cases version' with
    | none =>
      have hmore : text.toList.length + (fileKey.toList.length + 1) = fileKey.toList.length := by
        simpa [suffix, forFile] using hlength
      omega
    | some text' => simpa [suffix, forFile] using h

theorem fileKey_of_suffix {fileKey fileKey' : String} {version : Option String}
    (h : (forFile fileKey version).suffix = (forFile fileKey' version).suffix) : fileKey = fileKey' := by
  cases version with
  | none => simpa [suffix, forFile] using h
  | some text => simpa [suffix, forFile] using h

/-- Versions without a colon, and the files with them, can be told from the key. -/
theorem eq_of_suffix {fileKey fileKey' version version' : String} (hcolon : ':' ∉ version.toList)
    (hcolon' : ':' ∉ version'.toList)
    (h : (forFile fileKey (some version)).suffix = (forFile fileKey' (some version')).suffix) :
    version = version' ∧ fileKey = fileKey' := by
  have hlists : version.toList ++ ':' :: fileKey.toList = version'.toList ++ ':' :: fileKey'.toList := by
    have htoList := congrArg String.toList h
    simpa [suffix, forFile] using htoList
  have hsplit := congrArg (fun l => (l.splitOn ':').head?) hlists
  rw [List.splitOn_append_cons_self_of_not_mem hcolon, List.splitOn_append_cons_self_of_not_mem hcolon',
    List.head?_cons, List.head?_cons] at hsplit
  have hversion : version = version' := String.toList_inj.mp (Option.some.inj hsplit)
  refine ⟨hversion, ?_⟩
  rw [hversion] at hlists
  exact String.toList_inj.mp (List.cons.inj (List.append_cancel_left hlists)).2

end CacheKey

end SonarJavascript.Cache
