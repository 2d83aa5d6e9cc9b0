import SonarJavascript.Helpers.QualifiedValues

/-!
# Qualified names and the values of the module

A name `m.p1...pk` is faithful when in every execution the value of the expression is obtained from the value
of the module by reading these properties, with calls in between. It is, if every access, pattern, lookup and
`require` that the search goes through is plain (`getFullyQualifiedName_faithful`).
-/

namespace SonarJavascript.Helpers.Module

variable {Var Value : Type}

/-! ### One variable further -/

section Search

variable [DecidableEq Var] {program : Program Var} {world : World Value} {run past : List (Event Var Value)}
  {call : Call Var} {x : Var} {specifier : Text} {fqn : List Text} {visitedVars : List Var}
  {recur : Node → List Text → Option (Scope Var) → List Var → Option (Option Answer)}

omit [DecidableEq Var] in
theorem getScope_below {node base : Node} (h : Below node base) : program.getScope node = program.getScope base := by
  induction h with
  | refl => rfl
  | tail _ hnext ih => rw [ih, program.getScope_next _ _ hnext]

theorem mem_of_lastAssigned {binding : ℕ} {u : Value} {writer : Option Reference}
    (h : lastAssigned past x binding = some (u, writer)) : .assigned x binding u writer ∈ past := by
  obtain ⟨event, hmem, hevent⟩ := List.exists_of_findSome?_eq_some h
  cases event with
  | evaluated => simp at hevent
  | assigned y i value made =>
    simp only [Option.ite_none_right_eq_some, Option.some.injEq, Prod.mk.injEq] at hevent
    obtain ⟨⟨rfl, rfl⟩, rfl, rfl⟩ := hevent
    exact hmem

theorem RegularRun.follows {next : Call Var} (h : RegularRun program call run) (hfollows : Follows program call next) :
    RegularRun program next run :=
  fun reached node hreached => h reached node (.head hfollows hreached)

/-- The value of the expression comes from a value read from the variable. -/
theorem exists_read (hplain : Plain program call) (hvariable : call.variable program = some x)
    (hrun : Execution program world run) (hregular : RegularRun program call run) {v : Value}
    (hmem : .evaluated call.node v ∈ run) :
    ∃ past u, (∀ {event}, event ∈ past → event ∈ run) ∧ ReadsVariable program world past x u ∧
      (∀ identifier id, program.definitions x = [.Variable identifier id] →
        ∃ binding reference, lastAssigned past x binding = some (u, some reference)) ∧
      Accessed world u (reduceToIdentifier call.node []).2 v := by
  have hbase : (reduceToIdentifier call.node call.fqn).1 = (reduceToIdentifier call.node []).1 := by
    rw [reduceToIdentifier, reduceTo_eq]
    rfl
  have hbelow : Below call.node (reduceToIdentifier call.node []).1 := below_reduceTo _ _
  have hregular : ∀ n, Below call.node n → ∀ past v, .evaluated n v :: past <:+ run →
      Regular program past (.evaluated n v) := fun n hn => hregular call n .refl (.inl hn)
  obtain ⟨-, u, hu, haccessed⟩ := reduceTo_accessed "Identifier" hrun hplain.links hregular hmem
  have hlookup := hplain.lookup
  unfold Call.variable at hvariable
  change .evaluated (reduceToIdentifier call.node []).1 u ∈ run at hu
  rw [← hbase] at hu hbelow
  split at hvariable
  · next name position hidentifier =>
    rw [hidentifier] at hu hbelow
    obtain ⟨past, hsuffix, hjustified⟩ := hrun.justified hu
    have hat : program.variableAt name position = some x := by
      cases hscope : call.scope with
      | none =>
        rw [hscope, Option.getD_none, getScope_below hbelow] at hvariable
        exact hvariable
      | some scope =>
        rw [← hlookup scope name position hscope hidentifier]
        rw [hscope] at hvariable
        exact hvariable
    refine ⟨past, u, History.mem_of_past hsuffix, hjustified x hat, ?_, haccessed⟩
    exact fun identifier id hdefinition => hregular _ hbelow past u hsuffix x identifier id hat hdefinition
  · cases hvariable

theorem reduceToIdentifier_eq (node : Node) (fqn : List Text) :
    (reduceToIdentifier node fqn).2 = (reduceToIdentifier node []).2 ++ fqn := by
  rw [reduceToIdentifier, reduceTo_eq]
  rfl

/-- The qualifiers that `checkFqnFromImport` adds for a specifier. -/
theorem faithful_of_specifier {imported : Specifier} {source : Text} (hplain : Plain program call)
    (hvariable : call.variable program = some x)
    (hdefinition : program.definitions x = [.ImportBinding imported source]) :
    Faithful program call source
      (source.splitOn '/' ++ unshiftImported imported (reduceToIdentifier call.node call.fqn).2) := by
  have hfqn := reduceToIdentifier_eq call.node call.fqn
  -- the value of the module itself
  have hmodule : (∀ (Value : Type) (world : World Value) past u,
        ReadsVariable program world past x u → world.exports source u) →
      Faithful program call source (source.splitOn '/' ++ (reduceToIdentifier call.node call.fqn).2) := by
    intro hread
    refine ⟨(reduceToIdentifier call.node []).2, by rw [hfqn, List.append_assoc], ?_⟩
    intro Value world run hrun hregular v hmem
    obtain ⟨past, u, -, hu, -, haccessed⟩ := exists_read hplain hvariable hrun hregular hmem
    exact ⟨u, hread Value world past u hu, haccessed⟩
  rcases imported with (name | text) | _ | _
  · by_cases hdefault : name = "default".toList
    · rw [unshiftImported, if_neg (not_not.mpr hdefault)]
      refine hmodule fun Value world past u hu => ?_
      rw [ReadsVariable, hdefinition] at hu
      simpa [ModuleExportName.text, hdefault] using hu
    · rw [unshiftImported, if_pos hdefault]
      refine ⟨name :: (reduceToIdentifier call.node []).2, by simp [hfqn], ?_⟩
      intro Value world run hrun hregular v hmem
      obtain ⟨past, u, -, hread, -, haccessed⟩ := exists_read hplain hvariable hrun hregular hmem
      rw [ReadsVariable, hdefinition] at hread
      simp only [ModuleExportName.text, hdefault, if_false] at hread
      obtain ⟨exported, hexported, hread⟩ := hread
      exact ⟨exported, hexported, (Accessed.single hread).trans haccessed⟩
  · have hdefault := hplain.imported x text source hvariable hdefinition
    refine hmodule fun Value world past u hu => ?_
    rw [ReadsVariable, hdefinition] at hu
    simpa [ModuleExportName.text, hdefault] using hu
  · refine hmodule fun Value world past u hu => ?_
    rw [ReadsVariable, hdefinition] at hu
    exact hu
  · refine hmodule fun Value world past u hu => ?_
    rw [ReadsVariable, hdefinition] at hu
    exact hu

theorem faithful_of_import {definition : Definition} (hplain : Plain program call)
    (hvariable : call.variable program = some x) (hdefinition : program.definitions x = [definition])
    (hrecur : ∀ next, Follows program call next →
      recur next.node next.fqn next.scope (visitedVars ++ [x]) = some (some (.module specifier fqn)) →
      Faithful program next specifier fqn)
    (h : checkFqnFromImport recur program x definition (reduceToIdentifier call.node call.fqn).2 visitedVars =
      some (some (.module specifier fqn))) : Faithful program call specifier fqn := by
  have hfqn := reduceToIdentifier_eq call.node call.fqn
  unfold checkFqnFromImport at h
  split at h
  · next imported source =>
    simp only [Option.some.injEq, Answer.module.injEq] at h
    obtain ⟨rfl, rfl⟩ := h
    exact faithful_of_specifier hplain hvariable hdefinition
  · next source position =>
    simp only [Option.some.injEq, Answer.module.injEq] at h
    obtain ⟨rfl, rfl⟩ := h
    refine ⟨(reduceToIdentifier call.node []).2, by rw [hfqn, List.append_assoc], ?_⟩
    intro Value world run hrun hregular v hmem
    obtain ⟨past, u, -, hread, -, haccessed⟩ := exists_read hplain hvariable hrun hregular hmem
    rw [ReadsVariable, hdefinition] at hread
    exact ⟨u, hread, haccessed⟩
  · next left right =>
    obtain ⟨path, rfl, hpath⟩ := hrecur _ (.renamed hvariable hdefinition) h
    refine ⟨path ++ (reduceToIdentifier call.node []).2, by simp [hfqn], ?_⟩
    intro Value world run hrun hregular v hmem
    obtain ⟨past, u, hpast, hread, -, haccessed⟩ := exists_read hplain hvariable hrun hregular hmem
    rw [ReadsVariable, hdefinition] at hread
    obtain ⟨exported, hexported, hfirst⟩ :=
      hpath Value world run hrun (hregular.follows (.renamed hvariable hdefinition)) u (hpast hread)
    exact ⟨exported, hexported, hfirst.trans haccessed⟩
  · cases h

theorem unshiftPattern_eq (name : ℕ) (id : Pattern) (fqn : List Text) :
    unshiftPattern name id fqn = unshiftPattern name id [] ++ fqn := by
  unfold unshiftPattern
  split
  · exact unshiftKeys_eq name _ fqn
  · rfl

theorem exports_of_requires {node : Node} {required : Text} {w : Value} (hrun : Execution program world run)
    (h : program.requires node = some required) (hmem : .evaluated node w ∈ run) : world.exports required w := by
  obtain ⟨past, -, hjustified⟩ := hrun.justified hmem
  cases node with
  | CallExpression callee arguments isOptional =>
    have hcall : Evaluates program world past (.CallExpression callee arguments isOptional) w := hjustified
    rw [Evaluates, h] at hcall
    exact hcall
  | _ => simp [Program.requires] at h

/-- The value that the variable gets from its only write. -/
theorem exists_written {name : ℕ} {id : Pattern} {value : Node} (hplain : PlainWrite program x name id)
    (hvalue : getUniqueWriteReference program x = some value) (hdefinition : .Variable name id ∈ program.definitions x)
    (hrun : Execution program world run) {binding : ℕ} {u : Value} {writer : Reference}
    (hassigned : .assigned x binding u (some writer) ∈ run) :
    ∃ w, .evaluated value w ∈ run ∧ Accessed world w (unshiftPattern name id []) u := by
  obtain ⟨reference, hfilter, htarget⟩ := hplain
  obtain ⟨past, hsuffix, hmem, hwrite, hjustified⟩ := hrun.justified hassigned
  have hwriter : writer = reference := by
    have hfiltered : writer ∈ (program.references x).filter (·.isWrite) := List.mem_filter.mpr ⟨hmem, hwrite⟩
    rw [hfilter] at hfiltered
    exact List.mem_singleton.mp hfiltered
  subst hwriter
  rw [getUniqueWriteReference, hfilter] at hvalue
  have hwhole : ∀ text, writer.target = some (.Identifier text writer.identifier) → ∃ w, .evaluated value w ∈ run ∧
      Accessed world w [] u := by
    intro text hidentifier
    obtain ⟨w, hw, hbinds⟩ := hjustified value _ hvalue hidentifier
    cases hbinds
    exact ⟨u, History.mem_of_past hsuffix hw, .refl u⟩
  cases id with
  | ObjectPattern properties =>
    obtain ⟨hpattern, hidentifier, key, position, text, hproperty⟩ := htarget
    have hnodup : (identifiersOfProperties properties).Nodup := program.nodup_identifiers x name _ hdefinition
    obtain ⟨w, hw, hbinds⟩ := hjustified value _ hvalue hpattern
    rw [hidentifier] at hbinds
    refine ⟨w, History.mem_of_past hsuffix hw, ?_⟩
    rw [unshiftPattern, unshiftKeys_of_mem hnodup hproperty]
    exact .single (hbinds.read hnodup hproperty)
  | Identifier | other =>
    obtain ⟨text, hidentifier⟩ := htarget
    exact hwhole text hidentifier

theorem faithful_of_require {definition : Definition} (hplain : Plain program call)
    (hvariable : call.variable program = some x) (hdefinition : program.definitions x = [definition])
    (hrecur : ∀ next, Follows program call next →
      recur next.node next.fqn next.scope (visitedVars ++ [x]) = some (some (.module specifier fqn)) →
      Faithful program next specifier fqn)
    (h : checkFqnFromRequire recur program x definition (reduceToIdentifier call.node call.fqn).2 visitedVars =
      some (some (.module specifier fqn))) : Faithful program call specifier fqn := by
  unfold checkFqnFromRequire at h
  split at h
  · next name id value hvalue =>
    obtain ⟨hwrite, hchain, hrequires⟩ := hplain.written x name id value hvariable hdefinition hvalue
    have hdefined : Definition.Variable name id ∈ program.definitions x := hdefinition ▸ List.mem_singleton_self _
    set keys := (reduceTo "CallExpression" value []).2 ++ unshiftPattern name id [] ++ (reduceToIdentifier call.node []).2
      with hkeys
    have hlist : (reduceTo "CallExpression" value (unshiftPattern name id (reduceToIdentifier call.node call.fqn).2)).2
        = keys ++ call.fqn := by
      rw [reduceTo_eq, reduceToIdentifier_eq, hkeys]
      simp [unshiftPattern_eq name id (_ ++ _)]
    have hnode : (reduceTo "CallExpression" value (unshiftPattern name id (reduceToIdentifier call.node call.fqn).2)).1
        = (reduceTo "CallExpression" value []).1 := by rw [reduceTo_eq]
    -- what the value of the expression comes from
    have hfrom : ∀ (Value : Type) (world : World Value) (run : List (Event Var Value)), Execution program world run →
        RegularRun program call run → ∀ v, .evaluated call.node v ∈ run →
        ∃ w, .evaluated (reduceTo "CallExpression" value []).1 w ∈ run ∧ Accessed world w keys v := by
      intro Value world run hrun hregular v hmem
      obtain ⟨past, u, hpast, -, hassigned, haccessed⟩ := exists_read hplain hvariable hrun hregular hmem
      obtain ⟨binding, writer, hlast⟩ := hassigned name id hdefinition
      obtain ⟨w, hw, hbound⟩ := exists_written hwrite hvalue hdefined hrun (hpast (mem_of_lastAssigned hlast))
      obtain ⟨-, w', hw', hfirst⟩ := reduceTo_accessed "CallExpression" hrun hchain
        (fun n hn => hregular call n .refl (.inr ⟨x, value, hvariable, hvalue, hn⟩)) hw
      exact ⟨w', hw', (hfirst.trans hbound).trans haccessed⟩
    simp only at h
    rw [hnode, hlist] at h
    split at h
    · next required hrequired =>
      simp only [Option.some.injEq, Answer.module.injEq] at h
      obtain ⟨rfl, rfl⟩ := h
      refine ⟨keys, (List.append_assoc _ keys _).symm, ?_⟩
      intro Value world run hrun hregular v hmem
      obtain ⟨w, hw, haccessed⟩ := hfrom Value world run hrun hregular v hmem
      exact ⟨w, exports_of_requires hrun (hrequires required hrequired) hw, haccessed⟩
    · have hfollows : Follows program call ⟨(reduceTo "CallExpression" value []).1, keys ++ call.fqn,
          some (program.scope x)⟩ := hlist ▸ .written hvariable hdefinition hvalue
      obtain ⟨path, rfl, hpath⟩ := hrecur _ hfollows h
      refine ⟨path ++ keys, by simp, ?_⟩
      intro Value world run hrun hregular v hmem
      obtain ⟨w, hw, haccessed⟩ := hfrom Value world run hrun hregular v hmem
      obtain ⟨exported, hexported, hfirst⟩ := hpath Value world run hrun (hregular.follows hfollows) w hw
      exact ⟨exported, hexported, hfirst.trans haccessed⟩
  · cases h

theorem exists_identifier_of_require {callee : Node} {arguments : List Node} {isOptional : Bool}
    (h : getModuleNameFromRequire (.CallExpression callee arguments isOptional) ≠ none) :
    ∃ name position, callee = .Identifier name position := by
  have hrequire : isRequire (.CallExpression callee arguments isOptional) = true := by
    by_contra hnot
    exact h (if_neg hnot)
  unfold isRequire at hrequire
  split at hrequire
  · next name position _ _ heq =>
    cases heq
    exact ⟨name, position, rfl⟩
  · cases hrequire

theorem faithful_of_chaining (hplain : Plain program call)
    (h : checkRequireChaining call.node = some (.module specifier fqn)) : Faithful program call specifier fqn := by
  unfold checkRequireChaining at h
  split at h
  · next callee arguments isOptional hnode =>
    simp only at h
    split at h
    · next required hrequired =>
      simp only [Option.some.injEq, Answer.module.injEq] at h
      obtain ⟨rfl, rfl⟩ := h
      obtain ⟨hfqn, hslash, hrequires⟩ := hplain.chaining _ _ _ _ hnode hrequired
      refine ⟨(reduceTo "CallExpression" callee []).2, ?_, ?_⟩
      · rw [hfqn, List.append_nil, List.splitOn_eq_singleton hslash]
        rfl
      intro Value world run hrun hregular v hmem
      have hnext : call.node.next = some callee := by rw [hnode, Node.next]
      have hnone : getModuleNameFromRequire call.node = none := by
        by_contra hne
        rw [hnode] at hne
        obtain ⟨name, position, rfl⟩ := exists_identifier_of_require hne
        have hother : getModuleNameFromRequire (reduceTo "CallExpression" (.Identifier name position) []).1 = none := rfl
        rw [hother] at hrequired
        cases hrequired
      have hbelow : ∀ n, Below call.node n → ∀ past v, .evaluated n v :: past <:+ run →
          Regular program past (.evaluated n v) := fun n hn => hregular call n .refl (.inl hn)
      obtain ⟨u, hu, hlast⟩ :=
        exists_evaluated_next hrun hplain.links hnext hnone (hbelow call.node .refl) hmem
      obtain ⟨-, w, hw, hfirst⟩ := reduceTo_accessed "CallExpression" hrun
        (hplain.links.next hnext hnone) (fun n hn => hbelow n (.head hnext hn)) hu
      have hkeys : call.node.keys = [] := by simp [hnode, Node.keys]
      have haccessed := hfirst.trans hlast
      rw [hkeys, List.append_nil] at haccessed
      exact ⟨w, exports_of_requires hrun hrequires hw, haccessed⟩
    · cases h
  · cases h

omit [DecidableEq Var] in
theorem definitions_eq_singleton {definition : Definition} (hlength : ¬ (program.definitions x).length > 1)
    (hfind : (program.definitions x).find? (·.followed) = some definition) : program.definitions x = [definition] := by
  have hmem := List.mem_of_find?_eq_some hfind
  obtain ⟨only, honly⟩ : ∃ only, program.definitions x = [only] :=
    List.length_eq_one_iff.mp (le_antisymm (not_lt.mp hlength) (List.length_pos_of_mem hmem))
  rw [honly] at hmem ⊢
  rw [List.mem_singleton.mp hmem]

/-- By induction on the number of variables followed. -/
theorem faithful_of_module {fuel : ℕ} {node : Node} {list : List Text} {scope : Option (Scope Var)}
    (h : getFullyQualifiedNameRaw program fuel node list scope visitedVars = some (some (.module specifier fqn)))
    (hplain : ∀ call, Relation.ReflTransGen (Follows program) ⟨node, list, scope⟩ call → Plain program call) :
    Faithful program ⟨node, list, scope⟩ specifier fqn := by
  induction fuel generalizing node list scope visitedVars with
  | zero => cases h
  | succ fuel ih =>
    have hself := hplain _ .refl
    rw [getFullyQualifiedNameRaw] at h
    split at h
    · next name position fqn' hidentifier =>
      obtain rfl : (reduceToIdentifier node list).2 = fqn' := by rw [hidentifier]
      split at h
      · cases h
      · next x hlookup =>
        have hvariable : Call.variable program ⟨node, list, scope⟩ = some x := by
          rw [Call.variable, hidentifier]
          exact hlookup
        split at h
        · cases h
        · next hlength =>
          split at h
          · cases h
          · split at h
            · cases h
            · next definition hfind =>
              have hdefinition := definitions_eq_singleton hlength hfind
              have hrecur : ∀ next, Follows program ⟨node, list, scope⟩ next →
                  getFullyQualifiedNameRaw program fuel next.node next.fqn next.scope (visitedVars ++ [x]) =
                    some (some (.module specifier fqn)) → Faithful program next specifier fqn :=
                fun next hfollows hnext => ih hnext fun call hcall => hplain call (.head hfollows hcall)
              split at h
              · exact faithful_of_require hself hvariable hdefinition hrecur h
              · exact faithful_of_import hself hvariable hdefinition hrecur h
    · exact faithful_of_chaining hself (Option.some.inj h)

end Search

/-! ### The text of the name -/

theorem join_cons (first : Text) (rest : List Text) : join (first :: rest) = first ++ rest.flatMap ('.' :: ·) := by
  induction rest generalizing first with
  | nil => simp [join]
  | cons second rest ih =>
    have hrest := ih second
    unfold join at hrest ⊢
    rw [List.flatMap_cons, List.cons_append, ← hrest]
    simp [List.intercalate]

theorem join_append {list : List Text} (hne : list ≠ []) (path : List Text) :
    join (list ++ path) = join list ++ path.flatMap ('.' :: ·) := by
  cases list with
  | nil => exact absurd rfl hne
  | cons first rest => rw [List.cons_append, join_cons, join_cons, List.flatMap_append, List.append_assoc]

theorem join_splitOn (specifier : Text) :
    join (specifier.splitOn '/') = specifier.map fun c => if c = '/' then '.' else c := by
  induction specifier with
  | nil => simp [join]
  | cons c rest ih =>
    obtain ⟨first, others, hsplit⟩ := List.exists_cons_of_ne_nil (List.splitOn_ne_nil '/' rest)
    rw [List.splitOn_cons_eq_if_modifyHead, List.map_cons, ← ih]
    by_cases hc : c = '/'
    · simp [hc, hsplit, join_cons]
    · simp [hc, hsplit, join_cons]

theorem isPrefixOf_append {l m rest : Text} (hdot : '.' ∉ l) (hrest : rest = [] ∨ rest.head? = some '.') :
    l.isPrefixOf (m ++ rest) = l.isPrefixOf m := by
  induction l generalizing m with
  | nil => rfl
  | cons c l ih =>
    rw [List.mem_cons, not_or] at hdot
    cases m with
    | nil =>
      rcases hrest with rfl | hrest
      · rfl
      · obtain ⟨tail, rfl⟩ := List.head?_eq_some_iff.mp hrest
        simp [List.isPrefixOf, Ne.symm hdot.1]
    | cons d m => simp only [List.cons_append, List.isPrefixOf, ih hdot.2]

theorem removeNodePrefix_join (specifier : Text) (path : List Text) :
    removeNodePrefixIfExists (join (specifier.splitOn '/' ++ path)) = qualifiedName specifier path := by
  have hrest : path.flatMap ('.' :: ·) = [] ∨ (path.flatMap ('.' :: ·)).head? = some '.' := by
    cases path with
    | nil => exact .inl rfl
    | cons first rest => exact .inr rfl
  rw [qualifiedName, join_cons, join_append (List.splitOn_ne_nil '/' specifier), join_splitOn]
  unfold removeNodePrefixIfExists
  rw [isPrefixOf_append (by decide) hrest]
  split
  · next hprefix =>
    have hle := (List.isPrefixOf_iff_prefix.mp hprefix).length_le
    exact List.drop_append_of_le_length hle
  · rfl

/-! ### Qualified names are faithful -/

/-- A name that comes from a module says how every value of the expression is obtained from it. -/
def Qualifies [DecidableEq Var] (program : Program Var) (expression : Node) : Prop :=
  ∀ fuel specifier fqn,
    getFullyQualifiedNameRaw program fuel expression [] none [] = some (some (.module specifier fqn)) →
    ∃ path, getFullyQualifiedName program fuel expression = some (some (qualifiedName specifier path)) ∧
      ∀ (Value : Type) (world : World Value) (run : List (Event Var Value)), Execution program world run →
        ∀ v, .evaluated expression v ∈ run → Obtained world specifier path v

theorem getFullyQualifiedName_faithful [Fintype Var] [DecidableEq Var] (program : Program Var) (expression : Node) :
    (∀ fuel, Fintype.card Var < fuel → (getFullyQualifiedName program fuel expression).isSome) ∧
    ∀ fuel specifier fqn,
      getFullyQualifiedNameRaw program fuel expression [] none [] = some (some (.module specifier fqn)) →
      (∀ call, Relation.ReflTransGen (Follows program) ⟨expression, [], none⟩ call → Plain program call) →
      ∃ path, getFullyQualifiedName program fuel expression = some (some (qualifiedName specifier path)) ∧
        ∀ (Value : Type) (world : World Value) (run : List (Event Var Value)), Execution program world run →
          RegularRun program ⟨expression, [], none⟩ run →
          ∀ v, .evaluated expression v ∈ run → Obtained world specifier path v := by
  constructor
  · intro fuel hfuel
    rw [getFullyQualifiedName, Option.isSome_map]
    exact getFullyQualifiedNameRaw_isSome List.nodup_nil (by simpa using hfuel) expression [] none
  · intro fuel specifier fqn h hplain
    obtain ⟨path, rfl, hpath⟩ := faithful_of_module h hplain
    refine ⟨path, ?_, hpath⟩
    rw [getFullyQualifiedName, h, List.append_nil, Option.map_some, Option.map_some, Answer.fqn,
      removeNodePrefix_join]

namespace Sample

def text (s : String) : Text := s.toList

def require : Node := .CallExpression (.Identifier (text "require") 1) [.Literal (some (text "lib")) 2] false

/-- A variable with one write, at position 0. -/
def declare (name : String) (id : Pattern) (value : Node) (hnodup : id.identifiers.Nodup) : Program Unit where
  getScope _ := .global [(text name, ())]
  definitions _ := [.Variable 0 id]
  references _ := [⟨0, true, some value, some id⟩, ⟨4, false, none, none⟩]
  scope _ := .global [(text name, ())]
  writeable _ := none
  getScope_next _ _ _ := rfl
  nodup_identifiers x name other hmem := by
    obtain ⟨-, rfl⟩ := Definition.Variable.inj (List.mem_singleton.mp hmem)
    exact hnodup

/-- Objects have numbers. -/
inductive Datum
  | object (n : ℕ)
  | string (text : Text)

/-- The module is object 1 and its property foo object 2, which gives object 3 when it is called. The property
bar of object 2 is object 4, that of object 3 is object 5. -/
def world : World Datum where
  undefined := .object 0
  nullish v := v = .object 0
  string := .string
  toKey
    | .string text => .name text
    | .object _ => .other
  exports specifier v := specifier = text "lib" ∧ v = .object 1
  reads v key u := key = .name (text "foo") ∧ v = .object 1 ∧ u = .object 2 ∨
    key = .name (text "bar") ∧ (v = .object 2 ∧ u = .object 4 ∨ v = .object 3 ∧ u = .object 5)
  calls v u := v = .object 2 ∧ u = .object 3
  toKey_string _ := rfl

/-- `const { foo } = require('lib'); foo.bar` -/
def destructured : Program Unit :=
  declare "foo" (.ObjectPattern [.Property (.Identifier (text "foo") 3) false (.Identifier (text "foo") 0)]) require
    (by simp [Pattern.identifiers, identifiersOfProperties, PatternMember.identifiers])

def fooBar : Node := .MemberExpression (.Identifier (text "foo") 4) (.Identifier (text "bar") 5) false false

def destructuredRun : List (Event Unit Datum) :=
  [.evaluated fooBar (.object 4), .evaluated (.Identifier (text "foo") 4) (.object 2),
    .assigned () 0 (.object 2) (some ⟨0, true, some require,
      some (.ObjectPattern [.Property (.Identifier (text "foo") 3) false (.Identifier (text "foo") 0)])⟩),
    .evaluated require (.object 1)]

theorem destructuredRun_execution : Execution destructured world destructuredRun := by
  refine .cons ?_ (.cons ?_ (.cons ?_ (.cons ?_ .nil)))
  · exact ⟨.object 2, .name (text "bar"), by simp, rfl, .inr ⟨rfl, .inl ⟨rfl, rfl⟩⟩⟩
  · exact fun x _ => ⟨0, rfl⟩
  · refine ⟨List.mem_cons_self, rfl, ?_⟩
    rintro value target hvalue htarget
    obtain rfl := Option.some.inj hvalue
    obtain rfl := Option.some.inj htarget
    exact ⟨.object 1, by simp, .property (List.mem_singleton_self _) rfl (.inl ⟨rfl, rfl, rfl⟩) (.identifier _ _ _)⟩
  · exact ⟨rfl, rfl⟩

theorem destructuredRun_regular (past : List (Event Unit Datum)) (event : Event Unit Datum)
    (h : event :: past <:+ destructuredRun) : Regular destructured past event := by
  simp only [destructuredRun, List.suffix_cons_iff, List.cons.injEq, List.suffix_nil, reduceCtorEq, or_false] at h
  rcases h with ⟨rfl, rfl⟩ | ⟨rfl, rfl⟩ | ⟨rfl, rfl⟩ | ⟨rfl, rfl⟩
  · trivial
  · exact fun x _ _ _ _ => ⟨0, _, rfl⟩
  · trivial
  · trivial

theorem destructured_reached (call : Call Unit)
    (h : Relation.ReflTransGen (Follows destructured) ⟨fooBar, [], none⟩ call) :
    call = ⟨fooBar, [], none⟩ ∨ call = ⟨require, [text "foo", text "bar"], some (destructured.scope ())⟩ := by
  induction h with
  | refl => exact .inl rfl
  | tail _ hfollows ih =>
    rcases ih with rfl | rfl
    · cases hfollows with
      | renamed _ hdefinition => cases hdefinition
      | written _ hdefinition hvalue =>
        cases hdefinition
        obtain rfl := Option.some.inj hvalue
        exact .inr rfl
    · cases hfollows with
      | renamed hvariable => cases hvariable
      | written hvariable => cases hvariable

theorem destructured_plain (call : Call Unit)
    (h : Relation.ReflTransGen (Follows destructured) ⟨fooBar, [], none⟩ call) : Plain destructured call := by
  rcases destructured_reached call h with rfl | rfl
  · refine ⟨⟨trivial, trivial⟩, nofun, nofun, nofun, ?_⟩
    rintro x name id value - hdefinition hvalue
    cases hdefinition
    obtain rfl := Option.some.inj hvalue
    refine ⟨⟨_, rfl, rfl, rfl, text "foo", 3, text "foo", List.mem_singleton_self _⟩, nofun, ?_⟩
    rintro specifier hrequired
    obtain rfl := Option.some.inj (Option.some.inj hrequired)
    rfl
  · refine ⟨nofun, nofun, ?_, nofun, nofun⟩
    rintro callee arguments isOptional specifier hnode hrequired
    cases hnode
    cases hrequired

/-- `const x = require('lib').foo(); x.bar` -/
def fooCall : Node :=
  .CallExpression (.MemberExpression require (.Identifier (text "foo") 3) false false) [] false

def chained : Program Unit := declare "x" (.Identifier (text "x") 0) fooCall (by simp [Pattern.identifiers])

def xBar : Node := .MemberExpression (.Identifier (text "x") 4) (.Identifier (text "bar") 5) false false

def chainedRun : List (Event Unit Datum) :=
  [.evaluated xBar (.object 5), .evaluated (.Identifier (text "x") 4) (.object 3),
    .assigned () 0 (.object 3) (some ⟨0, true, some fooCall, some (.Identifier (text "x") 0)⟩),
    .evaluated fooCall (.object 3),
    .evaluated (.MemberExpression require (.Identifier (text "foo") 3) false false) (.object 2),
    .evaluated require (.object 1)]

theorem chainedRun_execution : Execution chained world chainedRun := by
  refine .cons ?_ (.cons ?_ (.cons ?_ (.cons ?_ (.cons ?_ (.cons ?_ .nil)))))
  · exact ⟨.object 3, .name (text "bar"), by simp, rfl, .inr ⟨rfl, .inr ⟨rfl, rfl⟩⟩⟩
  · exact fun x _ => ⟨0, rfl⟩
  · refine ⟨List.mem_cons_self, rfl, ?_⟩
    rintro value target hvalue htarget
    obtain rfl := Option.some.inj hvalue
    obtain rfl := Option.some.inj htarget
    exact ⟨.object 3, by simp, .identifier _ _ _⟩
  · exact ⟨.object 2, by simp, rfl, rfl⟩
  · exact ⟨.object 1, .name (text "foo"), by simp, rfl, .inl ⟨rfl, rfl, rfl⟩⟩
  · exact ⟨rfl, rfl⟩

theorem accessed_module {path : List Text} {v : Datum} (h : Accessed world (.object 1) path v) :
    path = [] ∧ v = .object 1 ∨ path = [text "foo"] ∧ (v = .object 2 ∨ v = .object 3) ∨
      path = [text "foo", text "bar"] ∧ (v = .object 4 ∨ v = .object 5) := by
  induction h with
  | refl => exact .inl ⟨rfl, rfl⟩
  | read _ hread ih =>
    rcases hread with ⟨hkey, hv, rfl⟩ | ⟨hkey, ⟨hv, rfl⟩ | ⟨hv, rfl⟩⟩ <;> cases hkey <;> cases hv <;>
      simp_all
  | call _ hcall ih =>
    obtain ⟨hv, rfl⟩ := hcall
    cases hv
    simpa using ih

end Sample

theorem getFullyQualifiedName_faithful_destructured :
    ∃ path, getFullyQualifiedName Sample.destructured 2 Sample.fooBar = some (some (qualifiedName (Sample.text "lib") path)) ∧
      Obtained Sample.world (Sample.text "lib") path (.object 4) := by
  obtain ⟨path, hname, hvalue⟩ := (getFullyQualifiedName_faithful Sample.destructured Sample.fooBar).2 2
    (Sample.text "lib") [Sample.text "lib", Sample.text "foo", Sample.text "bar"] (by decide) Sample.destructured_plain
  refine ⟨path, hname, hvalue Sample.Datum Sample.world Sample.destructuredRun Sample.destructuredRun_execution ?_ _
    List.mem_cons_self⟩
  exact fun call node _ _ past v h => Sample.destructuredRun_regular past _ h

/-- `const x = require('lib').foo(); x.bar` is named lib.foo. -/
theorem chained_not_qualified : ¬ Qualifies Sample.chained Sample.xBar := by
  intro h
  obtain ⟨path, hname, hvalue⟩ := h 2 (Sample.text "lib") [Sample.text "lib", Sample.text "foo"] (by decide)
  obtain ⟨exported, ⟨-, rfl⟩, haccessed⟩ := hvalue Sample.Datum Sample.world Sample.chainedRun
    Sample.chainedRun_execution (.object 5) List.mem_cons_self
  rcases Sample.accessed_module haccessed with ⟨-, hv⟩ | ⟨-, hv⟩ | ⟨rfl, -⟩
  · cases hv
  · simp at hv
  · revert hname
    decide

end SonarJavascript.Helpers.Module
