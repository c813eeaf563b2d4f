import Outline.Proofs.Declaration.Spacing
import Outline.Proofs.Extraction.Cpp.TrailingText
import Outline.Proofs.Extraction.Growth
import Outline.Proofs.Extraction.PropertyLine

/-!
# How summaries spell types

Every type that a rule reports, of a parameter, a result, a property or a base, is spelled on one
line with single spaces, and no name it reports holds a line feed.
-/

namespace Outline

open Finding (among_nil)
open Text (SingleSpaced singleSpaced_normalizeSpace)

/-- The types of a function have single spaces, and its names no line feeds. -/
structure FunctionEntry.Spelled (entry : FunctionEntry) : Prop where
  name : '\n' ∉ entry.qualifiedName.toList
  parameters : ∀ parameter ∈ entry.parameters,
    '\n' ∉ parameter.name.toList ∧ SingleSpaced parameter.type.toList
  returnType : ∀ type ∈ entry.returnType, SingleSpaced type.toList

/-- The same of a class, but for its members. -/
structure ClassEntry.Spelled (entry : ClassEntry) : Prop where
  name : '\n' ∉ entry.name.toList
  base : ∀ type ∈ entry.base, SingleSpaced type.toList
  interfaces : ∀ type ∈ entry.interfaces, SingleSpaced type.toList

/-- The types that a finding brings in have single spaces.  A class comes without members. -/
def Finding.Spelled : Finding → Prop
  | .classBody draft =>
    draft.entry.Spelled ∧ draft.entry.methods = [] ∧ draft.entry.properties = []
  | .method _ entry | .function entry => entry.Spelled
  | .property _ entry => SingleSpaced entry.type.toList
  | _ => True

def Finding.AllSpelled (findings : List Finding) : Prop := ∀ finding ∈ findings, finding.Spelled

namespace Finding

theorem allSpelled_nil : AllSpelled [] := by simp [AllSpelled]

theorem allSpelled_singleton {finding : Finding} (h : finding.Spelled) : AllSpelled [finding] := by
  intro f hf
  exact List.mem_singleton.mp hf ▸ h

theorem allSpelled_classBody {draft : ClassDraft} (h : draft.entry.Spelled)
    (hm : draft.entry.methods = []) (hp : draft.entry.properties = []) :
    AllSpelled [.classBody draft] := by
  intro f hf
  obtain rfl := List.mem_singleton.mp hf
  exact ⟨h, hm, hp⟩

theorem AllSpelled.append {findings findings' : List Finding} (h : AllSpelled findings)
    (h' : AllSpelled findings') : AllSpelled (findings ++ findings') := by
  intro f hf
  rcases List.mem_append.mp hf with hf | hf
  · exact h f hf
  · exact h' f hf

/-- Findings that bring in no types. -/
theorem allSpelled_of_among {kinds : List Kind} {findings : List Finding}
    (h : Among kinds findings)
    (hk : Kind.classBody ∉ kinds ∧ Kind.method ∉ kinds ∧ Kind.function ∉ kinds ∧
      Kind.property ∉ kinds) : AllSpelled findings := by
  obtain ⟨hclass, hmethod, hfunction, hproperty⟩ := hk
  intro finding hf
  have hkind := h finding hf
  cases finding with
  | classBody => exact absurd hkind hclass
  | method => exact absurd hkind hmethod
  | function => exact absurd hkind hfunction
  | property => exact absurd hkind hproperty
  | package | imported | block | label | abstractClass | error | warning => trivial

theorem allSpelled_map_property {α : Type} {entries : List α} {index : Nat}
    {entry : α → PropertyEntry} (h : ∀ a ∈ entries, SingleSpaced (entry a).type.toList) :
    AllSpelled (entries.map fun a => .property index (entry a)) := by
  intro finding hf
  obtain ⟨a, ha, rfl⟩ := List.mem_map.mp hf
  exact h a ha

theorem allSpelled_checkTerminated (subject : Subject) (body : Body) (name : List Char)
    (offset : Nat) : AllSpelled (subject.checkTerminated body name offset) := by
  have hwarnings : Among [.warning] (subject.checkTerminated body name offset) :=
    among_checkTerminated List.mem_cons_self subject body name offset
  exact allSpelled_of_among hwarnings (by decide)

end Finding

open Finding (AllSpelled allSpelled_nil allSpelled_singleton allSpelled_classBody
  allSpelled_of_among allSpelled_map_property allSpelled_checkTerminated)

variable {subject : Subject} {scan : Scan} {found : Match}

theorem Subject.spelling_allows (subject : Subject) (start stop : Nat) :
    Allows (subject.spelling start stop) SingleSpaced :=
  (allows_true _).map fun _ _ => singleSpaced_normalizeSpace _

theorem Parameter.spelled_of_mem_ofList {rules : ParameterRules} {text : List Char} :
    ∀ parameter ∈ ofList rules text,
      '\n' ∉ parameter.name.toList ∧ SingleSpaced parameter.type.toList := fun _ hp =>
  ⟨(infix_of_mem_ofList hp).2.2, singleSpaced_of_mem_ofList hp⟩

/-! ## Java -/

namespace Java

theorem clausesFrom_allows (header : List Char) (keywords : List Capture) :
    Allows (clausesFrom header keywords) fun clauses =>
      ∀ clause ∈ clauses, ∀ type ∈ clause.2, SingleSpaced type := by
  induction keywords with
  | nil => exact .ok (by simp)
  | cons keyword rest ih =>
    have hcons : ∀ text, Allows (do
        let clauses ← clausesFrom header rest
        return (keyword.text, ((splitTopLevel ',' text).map Text.normalizeSpace).filter
          (!·.isEmpty)) :: clauses)
        fun clauses => ∀ clause ∈ clauses, ∀ type ∈ clause.2, SingleSpaced type := by
      refine fun text => ih.bind fun clauses hclauses => .ok ?_
      refine List.forall_mem_cons.mpr ⟨fun type htype => ?_, hclauses⟩
      obtain ⟨piece, -, rfl⟩ := List.mem_map.mp (List.mem_filter.mp htype).1
      exact singleSpaced_normalizeSpace piece
    rw [clausesFrom]
    split
    · exact (allows_true _).bind fun text _ => hcons text
    · exact (allows_true _).bind fun text _ => hcons text

theorem supertypes_allows (kind : ClassKind) (header : List Char) :
    Allows (supertypes kind header) fun types =>
      (∀ type ∈ types.1, SingleSpaced type.toList) ∧
        ∀ type ∈ types.2, SingleSpaced type.toList := by
  refine (clausesFrom_allows header _).map fun clauses hclauses => ?_
  refine List.foldlRecOn (motive := fun types : Option String × List String =>
    (∀ type ∈ types.1, SingleSpaced type.toList) ∧ ∀ type ∈ types.2, SingleSpaced type.toList)
    clauses _ (by simp) fun types htypes clause hclause => ?_
  have hnamed : ∀ type ∈ clause.2.map String.ofList, SingleSpaced type.toList := by
    intro type htype
    obtain ⟨piece, hpiece, rfl⟩ := List.mem_map.mp htype
    rw [String.toList_ofList]
    exact hclauses clause hclause piece hpiece
  dsimp only
  split
  · refine ⟨htypes.1, fun type htype => ?_⟩
    rcases List.mem_append.mp htype with htype | htype
    · exact htypes.2 type htype
    · exact hnamed type htype
  · split
    · exact ⟨fun type htype => hnamed type (List.mem_of_head? htype), htypes.2⟩
    · exact htypes

theorem recordComponents_spelled (subject : Subject) (index : Nat) (range : Option (Nat × Nat)) :
    Allows (recordComponents subject index range) AllSpelled := by
  cases range with
  | none => exact .ok allSpelled_nil
  | some range =>
    refine (allows_true _).bind fun text _ => .ok (allSpelled_map_property fun component hc => ?_)
    exact Parameter.singleSpaced_of_mem_ofList (List.mem_filter.mp hc).1

theorem enumConstants_spelled {enumName : List Char} (h : SingleSpaced enumName)
    (subject : Subject) (index opening : Nat) :
    Allows (enumConstants subject index opening enumName) AllSpelled := by
  refine (allows_true _).bind fun list _ => .ok fun finding hf => ?_
  obtain ⟨⟨offset, piece⟩, -, hpiece⟩ := List.mem_filterMap.mp hf
  obtain ⟨name, -, rfl⟩ := Option.map_eq_some_iff.mp hpiece
  show SingleSpaced (String.ofList enumName).toList
  rwa [String.toList_ofList]

theorem typeFindings_spelled {declaration name : Capture} {opening : Nat}
    (hname : ∀ c ∈ name.text, Text.isBlank c = false) :
    Allows (typeFindings subject scan found declaration name opening) AllSpelled := by
  have hfeed : '\n' ∉ name.text := fun h => absurd (hname _ h) (by decide)
  rw [typeFindings]
  refine (allows_true _).bind fun header _ =>
    (supertypes_allows _ header).bind fun supertypes htypes => ?_
  refine (allows_true _).bind fun body _ => ?_
  refine (recordComponents_spelled _ _ _).bind fun components hcomponents => ?_
  have hclass : ∀ draft : ClassDraft, draft.entry.name = String.ofList name.text →
      draft.entry.base = supertypes.1 → draft.entry.interfaces = supertypes.2 →
      draft.entry.methods = [] → draft.entry.properties = [] →
      AllSpelled ([.classBody draft] ++ subject.checkTerminated body name.text declaration.start
        ++ components) := by
    intro draft hdname hbase hinterfaces hmethods hproperties
    refine ((allSpelled_classBody ⟨?_, hbase ▸ htypes.1, hinterfaces ▸ htypes.2⟩ hmethods
      hproperties).append (allSpelled_checkTerminated _ _ _ _)).append hcomponents
    rwa [hdname, String.toList_ofList]
  dsimp only
  split
  · refine (enumConstants_spelled (.of_forall hname) _ _ _).bind fun constants hconstants => .ok ?_
    exact (hclass _ rfl rfl rfl rfl rfl).append hconstants
  · exact .ok ((hclass _ rfl rfl rfl rfl rfl).append allSpelled_nil)

theorem findType_spelled (hf : typePattern.FoundIn subject.masked found) :
    Allows (findType subject scan found) AllSpelled := by
  rw [findType]
  split
  · next declaration name _ hname =>
    refine (allows_true _).bind fun starts _ => ?_
    split
    · split
      · exact typeFindings_spelled (hf.isBlank_of_part (by decide +kernel) hname)
      · exact .ok allSpelled_nil
    · exact .ok allSpelled_nil
  · exact .ok allSpelled_nil

theorem entered_spelled {entry : FunctionEntry} (h : entry.Spelled) :
    AllSpelled [match scan.classAt? subject found.start with
      | some (index, _) => .method index entry
      | none => .function entry] := by
  refine allSpelled_singleton ?_
  split
  · exact h
  · exact h

theorem methodFindings_spelled {declaration name : Capture} {start stop : Nat} {trailer : Trailer}
    (hname : '\n' ∉ name.text) :
    Allows (methodFindings subject scan found declaration name start stop trailer) AllSpelled := by
  have hreturn : Allows (declaredReturn subject found) fun type? =>
      ∀ type ∈ type?.map String.ofList, SingleSpaced type.toList := by
    rw [declaredReturn]
    split
    · refine (subject.spelling_allows _ _).map fun type htype spelled hspelled => ?_
      obtain rfl := Option.some.inj hspelled
      rwa [String.toList_ofList]
    · exact .ok (by simp)
  have hentry : ∀ {entry : FunctionEntry} {text : List Char},
      entry.name = String.ofList name.text → entry.receiver = none →
      entry.parameters = Parameter.ofList parameterRules text →
      (∀ type ∈ entry.returnType, SingleSpaced type.toList) → entry.Spelled := by
    intro entry text hn hr hp ht
    refine ⟨?_, hp ▸ Parameter.spelled_of_mem_ofList, ht⟩
    rwa [FunctionEntry.qualifiedName, hr, hn, String.toList_ofList]
  rw [methodFindings]
  refine hreturn.bind fun returnType htype => (allows_true _).bind fun parameters _ => ?_
  cases trailer with
  | body opening =>
    refine (allows_true _).some.bind fun body? hbody => .ok (.append ?_ (entered_spelled ?_))
    · obtain ⟨body, rfl, -⟩ := hbody
      exact allSpelled_checkTerminated _ _ _ _
    · exact hentry rfl rfl rfl htype
  | declaration stop =>
    exact .ok (allSpelled_nil.append (entered_spelled (hentry rfl rfl rfl htype)))

theorem findMethod_spelled (hf : methodPattern.FoundIn subject.masked found) :
    Allows (findMethod subject scan found) AllSpelled := by
  rw [findMethod]
  split
  · next declaration name _ hname =>
    refine (allows_true _).bind fun starts _ => ?_
    split
    · exact .ok allSpelled_nil
    · dsimp only
      split
      · refine (allows_true _).bind fun trailer _ => ?_
        split
        · split
          · exact methodFindings_spelled (hf.not_mem_of_partSpares (by decide) hname)
          · exact .ok allSpelled_nil
        · exact .ok allSpelled_nil
      · exact .ok allSpelled_nil
  · exact .ok allSpelled_nil

theorem findField_spelled : Allows (findField subject scan found) AllSpelled := by
  rw [findField]
  split
  · refine (allows_true _).bind fun starts _ => ?_
    split
    · exact .ok allSpelled_nil
    · refine (subject.spelling_allows _ _).bind fun type htype =>
        (allows_true _).bind fun fields _ => .ok (allSpelled_map_property fun field _ => ?_)
      rwa [String.toList_ofList]
  · exact .ok allSpelled_nil

theorem spelled_of_mem_rules (text : List Char) : ∀ rule ∈ language.rules,
    ∀ scan, ∀ found ∈ rule.pattern.findAll (rule.text (language.subject text).source),
      Allows (rule.apply (language.subject text) scan found) AllSpelled := by
  intro rule hr scan found hm
  have hf := Pattern.foundIn_of_mem_findAll hm
  simp only [language, List.mem_cons, List.not_mem_nil, or_false] at hr
  rcases hr with rfl | rfl | rfl | rfl | rfl
  · exact findPackage_among.mono fun _ hk => allSpelled_of_among hk (by decide)
  · exact (@findImport_among _ scan _).mono fun _ hk => allSpelled_of_among hk (by decide)
  · exact findType_spelled hf
  · exact findMethod_spelled hf
  · exact findField_spelled

end Java

/-! ## C++ -/

theorem Text.subset_of_cutLast? {word text front back : List Char}
    (h : cutLast? word text = some (front, back)) : front ++ back ⊆ text := by
  induction text generalizing front back with
  | nil => cases h
  | cons c text ih =>
    rw [cutLast?] at h
    split at h
    · next front' back' hcut =>
      obtain ⟨rfl, rfl⟩ := Prod.mk.inj (Option.some.inj h)
      exact List.cons_subset_cons c (ih hcut)
    · obtain ⟨after, hafter, heq⟩ := Option.map_eq_some_iff.mp h
      obtain ⟨rfl, rfl⟩ := Prod.mk.inj heq
      rw [dropLead?_eq_some_iff.mp hafter]
      exact List.subset_append_right word after

namespace Cpp

theorem bases_spelled (text : List Char) : ∀ type ∈ bases text, SingleSpaced type.toList := by
  intro type htype
  obtain ⟨base, hbase, rfl⟩ := List.mem_map.mp htype
  obtain ⟨piece, -, rfl⟩ := List.mem_map.mp (List.mem_filter.mp hbase).1
  rw [String.toList_ofList]
  exact Text.singleSpaced_join_filter _ piece

/-- The parts of a qualified name are taken from a text on one line. -/
theorem feed_not_mem_splitQualified (name : List Char) :
    '\n' ∉ (splitQualified name).2 ∧ ∀ scopes ∈ (splitQualified name).1, '\n' ∉ scopes := by
  have hcompact := (singleSpaced_normalizeSpace (templateArguments.replaceAll [] name)).not_mem_feed
  rw [Text.normalizeSpace] at hcompact
  rw [splitQualified]
  generalize Text.join [' '] (Text.words (templateArguments.replaceAll [] name)) = compact
    at hcompact ⊢
  have hunscoped : '\n' ∉ Text.trim (Text.dropLeads [':', ':'] compact.length compact) := fun h =>
    hcompact ((Text.dropLeads_isSuffix _ _ _).subset ((Text.isInfix_trim _).subset h))
  split
  · next scopes last hcut =>
    have hparts := Text.subset_of_cutLast? hcut
    split
    · exact ⟨hunscoped, by simp⟩
    · refine ⟨fun h => hcompact (hparts (List.mem_append_right _ ((Text.isInfix_trim _).subset h))),
        fun name hname h => ?_⟩
      obtain rfl := Option.some.inj hname
      exact hcompact (hparts (List.mem_append_left _ (List.mem_filter.mp h).1))
  · exact ⟨hunscoped, by simp⟩

theorem trailingReturn_allows (subject : Subject) (range : Nat × Nat) :
    Allows (trailingReturn subject range) SingleSpaced :=
  (subject.spelling_allows _ _).map fun _ htext => htext.trim_of_isPrefix
    ((Text.dropTrails_isPrefix _ _).trans (Text.dropTrails_isPrefix _ _))

/-- Where a type is declared, trails or is taken from the modifiers, it has single spaces. -/
theorem returnTypeOf_allows {declared : Option (List Char)} {trailer : Trailer} {typeless : Bool}
    {modifiers : List (List Char)} (hdeclared : ∀ type ∈ declared, SingleSpaced type)
    (hmodifiers : ∀ word ∈ modifiers, SingleSpaced word) :
    Allows (returnTypeOf subject declared trailer typeless modifiers)
      fun answer => ∀ type? ∈ answer, ∀ type ∈ type?, SingleSpaced type := by
  have htrailing : ∀ range, Allows ((trailingReturn subject range).map (some ∘ some))
      fun answer => ∀ type? ∈ answer, ∀ type ∈ type?, SingleSpaced type := by
    refine fun range => (trailingReturn_allows subject range).map fun text htext => ?_
    rintro _ ⟨⟩ _ ⟨⟩
    exact htext
  rw [returnTypeOf.eq_def]
  split
  · exact htrailing _
  · next type _ =>
    split
    · exact htrailing _
    · refine .ok ?_
      rintro _ ⟨⟩ _ ⟨⟩
      exact hdeclared type rfl
  · next type _ =>
    refine .ok ?_
    rintro _ ⟨⟩ _ ⟨⟩
    exact hdeclared type rfl
  · split
    · exact .ok (by simp)
    · refine .ok fun type? htype? type htype => ?_
      obtain ⟨word, hword, rfl⟩ := Option.map_eq_some_iff.mp htype?
      obtain rfl := Option.some.inj htype
      exact hmodifiers _ (List.mem_of_getLast? (Option.filter_eq_some_iff.mp hword).1)

structure Head.Spelled (head : Head) : Prop where
  name : '\n' ∉ head.name
  receiver : ∀ scopes ∈ head.receiver, '\n' ∉ scopes
  returnType : ∀ type ∈ head.returnType, SingleSpaced type

theorem findHead_spelled {declaration nameCapture : Capture} {declared : Option (List Char)}
    {start stop : Nat} {trailer : Trailer} (hdeclared : ∀ type ∈ declared, SingleSpaced type) :
    Allows (findHead subject scan found declaration nameCapture declared start stop trailer)
      fun head? => ∀ head ∈ head?, head.Spelled := by
  obtain ⟨hname, hreceiver⟩ := feed_not_mem_splitQualified nameCapture.text
  rw [findHead]
  have hmodifiers : ∀ word ∈ Text.words (found.text .modifiers), SingleSpaced word :=
    fun word hword => .of_forall (Text.isBlank_of_mem_words hword)
  refine (returnTypeOf_allows hdeclared hmodifiers).bind fun answer hanswer => .ok ?_
  intro head hhead
  obtain ⟨returnType, hreturn, rfl⟩ := Option.map_eq_some_iff.mp hhead
  exact ⟨hname, hreceiver, hanswer returnType hreturn⟩

theorem entered_spelled (owner : Option (Nat × ClassDraft)) (ending : Ending)
    {entry : FunctionEntry} (h : entry.Spelled) : AllSpelled (match owner, ending with
      | some (index, _), .pure _ => [.abstractClass index, .method index entry]
      | some (index, _), _ => [.method index entry]
      | none, _ => [.function entry]) := by
  split
  · exact List.forall_mem_cons.mpr ⟨trivial, allSpelled_singleton h⟩
  · exact allSpelled_singleton h
  · exact allSpelled_singleton h

theorem functionFindings_spelled {head : Head} (h : head.Spelled) :
    Allows (functionFindings subject scan found head) AllSpelled := by
  have hentry : ∀ {entry : FunctionEntry} {text : List Char} {outside : Bool},
      entry.name = String.ofList head.name →
      entry.receiver = (if outside then none else head.receiver.map String.ofList) →
      entry.parameters = Parameter.ofList parameterRules text →
      entry.returnType = head.returnType.map String.ofList → entry.Spelled := by
    intro entry text outside hn hr hp ht
    refine ⟨?_, hp ▸ Parameter.spelled_of_mem_ofList, fun type htype => ?_⟩
    · have hname : '\n' ∉ (String.ofList head.name).toList := by
        rw [String.toList_ofList]
        exact h.name
      rw [FunctionEntry.qualifiedName, hr, hn]
      split
      · next receiver hreceiver =>
        have hscopes : '\n' ∉ receiver.toList := by
          split at hreceiver
          · cases hreceiver
          · obtain ⟨scopes, hscopes, rfl⟩ := Option.map_eq_some_iff.mp hreceiver
            rw [String.toList_ofList]
            exact h.receiver scopes hscopes
        simp [hscopes, h.name]
      · exact hname
    · rw [ht] at htype
      obtain ⟨spelled, hspelled, rfl⟩ := Option.map_eq_some_iff.mp htype
      rw [String.toList_ofList]
      exact h.returnType spelled hspelled
  rw [functionFindings]
  refine (allows_true _).bind fun parametersText _ => ?_
  dsimp only
  split
  · refine (allows_true _).some.bind fun body? hbody => .ok (.append ?_ (entered_spelled _ _ ?_))
    · obtain ⟨body, rfl, -⟩ := hbody
      exact allSpelled_checkTerminated _ _ _ _
    · exact hentry rfl rfl rfl rfl
  · exact .ok (allSpelled_nil.append (entered_spelled _ _ (hentry rfl rfl rfl rfl)))

theorem findFunction_spelled : Allows (findFunction subject scan found) AllSpelled := by
  rw [findFunction]
  split
  · refine (allows_true _).bind fun starts _ => ?_
    split
    · exact .ok allSpelled_nil
    · have hdeclared : ∀ name, Allows (declaredReturn subject found name)
          fun declared => ∀ type ∈ declared, SingleSpaced type := by
        intro name
        rw [declaredReturn]
        split
        · refine (subject.spelling_allows _ _).map fun type htype => ?_
          rintro _ ⟨⟩
          exact htype
        · exact .ok (by simp)
      refine (hdeclared _).bind fun declared hd => ?_
      split
      · exact .ok allSpelled_nil
      · dsimp only
        split
        · refine (allows_true _).bind fun trailer? _ => ?_
          split
          · exact .ok allSpelled_nil
          · refine (findHead_spelled hd).bind fun head? hhead => ?_
            split
            · exact .ok allSpelled_nil
            · split
              · exact functionFindings_spelled (hhead _ rfl)
              · exact .ok allSpelled_nil
        · exact .ok allSpelled_nil
  · exact .ok allSpelled_nil

theorem findClass_spelled (hf : classPattern.FoundIn subject.masked found) :
    Allows (findClass subject scan found) AllSpelled := by
  rw [findClass]
  split
  · next declaration name tail _ hname _ =>
    have hfeed : '\n' ∉ name.text := hf.not_mem_of_partSpares (by decide) hname
    refine (allows_true _).bind fun start _ => (allows_true _).bind fun starts _ => ?_
    split
    · split
      · refine (allows_true _).bind fun basesText _ => (allows_true _).bind fun body _ => .ok ?_
        have hbases := bases_spelled basesText
        refine (allSpelled_classBody ⟨?_, ?_, ?_⟩ rfl rfl).append
          (allSpelled_checkTerminated _ _ _ _)
        · show '\n' ∉ (String.ofList name.text).toList
          rwa [String.toList_ofList]
        · exact fun type htype => hbases type (List.mem_of_head? htype)
        · exact fun type htype => hbases type (List.mem_of_mem_tail htype)
      · exact .ok allSpelled_nil
    · exact .ok allSpelled_nil
  · exact .ok allSpelled_nil

theorem findField_spelled : Allows (findField subject scan found) AllSpelled := by
  rw [findField]
  split
  · refine (allows_true _).bind fun starts _ => ?_
    split
    · exact .ok allSpelled_nil
    · refine (subject.spelling_allows _ _).bind fun type htype =>
        (allows_true _).bind fun fields _ => .ok (allSpelled_map_property fun field _ => ?_)
      rwa [String.toList_ofList]
  · exact .ok allSpelled_nil

theorem spelled_of_mem_rules (text : List Char) : ∀ rule ∈ language.rules,
    ∀ scan, ∀ found ∈ rule.pattern.findAll (rule.text (language.subject text).source),
      Allows (rule.apply (language.subject text) scan found) AllSpelled := by
  intro rule hr scan found hm
  have hf := Pattern.foundIn_of_mem_findAll hm
  simp only [language, List.mem_cons, List.not_mem_nil, or_false] at hr
  rcases hr with rfl | rfl | rfl | rfl | rfl | rfl | rfl
  · exact (@findInclude_among _ scan _).mono fun _ hk => allSpelled_of_among hk (by decide)
  · exact (@findNamespace_among _ scan _).mono fun _ hk => allSpelled_of_among hk (by decide)
  · exact (@findLinkage_among (language.subject text) scan _).mono fun _ hk => allSpelled_of_among hk (by decide)
  · exact findClass_spelled hf
  · exact findLabel_among.mono fun _ hk => allSpelled_of_among hk (by decide)
  · exact findFunction_spelled
  · exact findField_spelled

end Cpp

/-! ## Summaries -/

/-- The functions and classes of a summary spell their types with single spaces. -/
structure Summary.Spelled (summary : Summary) : Prop where
  functions : ∀ entry ∈ summary.allFunctions, entry.Spelled
  classes : ∀ entry ∈ summary.classes, entry.Spelled
  properties : ∀ entry ∈ summary.classes, ∀ property ∈ entry.properties,
    SingleSpaced property.type.toList

/-- The checks on the members of classes and on functions. -/
def Checks.ofTypes : Checks where
  function := FunctionEntry.Spelled
  classLines _ _ := True
  property entry := SingleSpaced entry.type.toList
  imported _ := True
  diagnostic _ := True

theorem Finding.AllSpelled.allMeet {findings : List Finding} (h : AllSpelled findings) :
    Finding.AllMeet .ofTypes findings := by
  intro finding hf
  have hspelled := h finding hf
  cases finding with
  | classBody draft => exact ⟨trivial, by simp [hspelled.2.1], by simp [hspelled.2.2]⟩
  | method | function | property => exact hspelled
  | package | imported | block | label | abstractClass | error | warning => trivial

/-- What is said of a class when it is recorded stays, whatever members come later. -/
theorem Scan.spelled_recordAll {findings : List Finding} (h : AllSpelled findings)
    (hs : ∀ draft ∈ scan.classes, draft.entry.Spelled) :
    ∀ draft ∈ (scan.recordAll findings).classes, draft.entry.Spelled := by
  intro draft hd
  have hgiven := List.mem_map_of_mem (f := ClassDraft.given) hd
  rw [given_recordAll, ← List.map_append] at hgiven
  obtain ⟨recorded, hrecorded, heq⟩ := List.mem_map.mp hgiven
  have hspelled : recorded.entry.Spelled := by
    rcases List.mem_append.mp hrecorded with hold | hnew
    · exact hs recorded hold
    · exact (h _ (mem_of_draft? hnew)).1
  have hentry : recorded.given.entry.Spelled := ⟨hspelled.name, hspelled.base, hspelled.interfaces⟩
  rw [heq] at hentry
  exact ⟨hentry.name, hentry.base, hentry.interfaces⟩

theorem Language.extract_spelled {language : Language} {text : List Char}
    (h : ∀ rule ∈ language.rules, ∀ scan,
      ∀ found ∈ rule.pattern.findAll (rule.text (language.subject text).source),
        Allows (rule.apply (language.subject text) scan found) AllSpelled) :
    Allows (language.extract text) Summary.Spelled := by
  have hmembers := Language.scan_allows fun rule hr scan found hf =>
    (h rule hr scan found hf).mono fun _ hspelled => hspelled.allMeet
  have hclasses : Allows (language.scan (language.subject text))
      fun scan => ∀ draft ∈ scan.classes, draft.entry.Spelled := by
    refine Allows.foldlM (fun scan hs rule hr => ?_) (by simp [Scan.empty])
    refine Allows.foldlM (fun scan hs found hf => ?_) hs
    exact (h rule hr scan found hf).map fun findings hspelled => Scan.spelled_recordAll hspelled hs
  have hhints : AllSpelled (language.hints (language.subject text)) :=
    allSpelled_of_among (hints_among language _) (by decide)
  intro summary hok
  obtain ⟨scan, hscan, rfl⟩ : ∃ scan, language.scan (language.subject text) = .ok scan ∧
      (scan.recordAll (language.hints (language.subject text))).finish language.id = summary := by
    rw [extract] at hok
    cases hscan : language.scan (language.subject text) with
    | error e =>
      rw [hscan] at hok
      cases hok
    | ok scan =>
      rw [hscan] at hok
      exact ⟨scan, rfl, Except.ok.inj hok⟩
  have hmeets := ((hmembers scan hscan).recordAll hhints.allMeet).finish language.id
  refine ⟨fun entry he => ?_, fun entry he => ?_, fun entry he => (hmeets.classes entry he).properties⟩
  · rcases List.mem_append.mp he with he | he
    · exact hmeets.functions entry he
    · obtain ⟨class', hc, he⟩ := List.mem_flatMap.mp he
      exact (hmeets.classes class' hc).methods entry he
  · obtain ⟨draft, hd, rfl⟩ := List.mem_map.mp he
    have hspelled := Scan.spelled_recordAll hhints (hclasses scan hscan) draft hd
    exact ⟨hspelled.name, hspelled.base, hspelled.interfaces⟩

theorem Extractor.spelled_parse {extractor : Extractor} {text : List Char}
    (h : Allows (extractor.extract text) Summary.Spelled) : (extractor.parse text).Spelled := by
  rw [parse]
  split
  · next summary hok => exact h summary hok
  · refine ⟨?_, ?_, ?_⟩ <;> simp [Summary.failure, Summary.empty, Summary.allFunctions]

/-- The types in the summaries of both languages have single spaces. -/
theorem Registry.spelled_of_mem_builtIn (text : List Char) :
    ∀ extractor ∈ builtIn.extractors, (extractor.parse text).Spelled := by
  intro extractor he
  have hcases : extractor = java ∨ extractor = cpp := by
    simpa [builtIn, register, empty] using he
  rcases hcases with rfl | rfl
  · exact Extractor.spelled_parse (Language.extract_spelled (Java.spelled_of_mem_rules text))
  · exact Extractor.spelled_parse (Language.extract_spelled (Cpp.spelled_of_mem_rules text))

end Outline
