import AddressedForms.Proofs.Document.Capture
import AddressedForms.Proofs.Document.Soundness
import AddressedForms.Proofs.Repository.Holding
set_option autoImplicit false

/-!
Reading again what was registered. The document comes to copies of what it came to the first time,
under new numbers, and the repository holds them already; so all names stand for what they stood
for.
-/

namespace AddressedForms

namespace FormGraph
variable {ids : List FormId} {g h : FormGraph}

theorem Marks.coincide (hm : Marks ids g h) (hg : g.Sound) :
    Coincide (fun x => g.contains x) g h where
  slots x _ := by
    rcases hm x with hslot | ⟨-,f,hf,hmarked⟩
    · rw [hslot]
    · rw [hf,hmarked]
      rfl
  closed x f _ hf := hg.issued x f hf

end FormGraph

theorem Catalogue.within_of_follows {r s : Repository} (h : r.Follows s) (consulted : Bool) :
    (ofRepository r consulted).Within (ofRepository s consulted) := by
  cases consulted with
  | false => exact within_empty _
  | true => exact ⟨h.forms.grows.held,h.kept⟩

theorem Catalogue.Sound.shared {c : Catalogue} {g h k : FormGraph} {ids : List FormId}
    (hc : c.Sound g) (hg : g.Grows h) (hh : h.Sound) (hm : FormGraph.Marks ids h k) :
    c.Shared (fun x => h.contains x) h k where
  size := hm.size
  coincide := hm.coincide hh
  contained _ := id
  forms name id hid := hg.contains (hc.forms name id hid)
  denotators name d hd := (hc.denotators name d hd).imp_right fun hn n hmem =>
    hg.contains (hn n hmem)

/-- A later reading that comes to the same, up to equality of forms. -/
structure Reading.Repeats (p q : Reading) : Prop where
  reports : p.reports.Perm q.reports
  modules : p.symbols.modules = q.symbols.modules
  elements : p.symbols.elements = q.symbols.elements
  morphisms : p.symbols.morphisms = q.symbols.morphisms
  formSymbols : List.Forall₂ (fun x y => x.1 = y.1 ∧ q.repository.forms.Similar x.2 y.2)
    p.symbols.forms q.symbols.forms
  denotatorSymbols : List.Forall₂ (fun x y => x.1 = y.1 ∧ x.2.Alike q.repository.forms y.2)
    p.symbols.denotators q.symbols.denotators
  forms : List.Forall₂ q.repository.forms.Similar (p.forms.map Prod.snd) (q.forms.map Prod.snd)
  denotators : List.Forall₂ (Denotator.Alike q.repository.forms) p.denotators q.denotators

theorem Reading.repeats_ofNode {v : Vocabulary} {c : Catalogue} {root : Node} {r s : Repository}
    (hr : r.forms.Reachable) (hc : c.Sound r.forms)
    (hn : ¬ Clashes (ofNode v c root r).reports) (hs : s.forms.Reachable) {ids : List FormId}
    (hm : FormGraph.Marks ids (ofNode v c root r).repository.forms s.forms) :
    Repeats (ofNode v c root r) (ofNode v c root s) := by
  have hroot : root.withChildren root.children = root := by cases root; rfl
  obtain ⟨R,hre,htop,htops⟩ := reordered_ofNode hr hc (List.Perm.refl root.children) hn
  rw [hroot] at hre htop htops
  have hfollows := (Repository.follows_ofNode v c root r).forms
  have hreachable := hfollows.reachable hr
  obtain ⟨hsame,-,hcoincide⟩ :=
    same_ofNode (hc.shared hfollows.grows hreachable.sound hm) hreachable hs v root
  have hsimilar (x y : FormId) (hxy : R x y) : (ofNode v c root s).repository.forms.Similar x y :=
    hcoincide.similar (Classical.em _) (Classical.em _) (hre.similar x y hxy)
  refine ⟨?_,?_,?_,?_,?_,?_,?_,?_⟩
  · exact hsame.reports ▸ hre.reports
  · exact hsame.symbols ▸ hre.modules
  · exact hsame.symbols ▸ hre.elements
  · exact hsame.symbols ▸ hre.morphisms
  · rw [hsame.symbols]
    exact hre.forms.imp fun x y h => ⟨h.1,hsimilar _ _ h.2⟩
  · rw [hsame.symbols]
    exact hre.denotators.imp fun x y h => ⟨h.1,h.2.alike hsimilar⟩
  · rw [hsame.forms]
    exact htop.forall₂.imp hsimilar
  · rw [hsame.denotators]
    exact htops.forall₂.imp fun x y h => h.alike hsimilar

/-- What is read again after it was registered without reports is what it was with the catalogue as
it stood, since names in it are found already. -/
theorem Reading.ofNode_register {r : Repository} (hr : r.Reachable) {v : Vocabulary}
    {consulted : Bool} {root : Node}
    (hclean : (ofNode v (.ofRepository r consulted) root r).reports = []) :
    let p := ofNode v (.ofRepository r consulted) root r
    let s := p.register.repository
    let q := ofNode v (.ofRepository s consulted) root s
    Repeats p q ∧ q.reports = [] := by
  intro p s q
  set c := Catalogue.ofRepository r consulted
  have hregistrable : p.Registrable := registrable_ofNode _ _ (hr.catalogue consulted).forms
  have hfollows : r.Follows s :=
    (Repository.follows_ofNode v c root r).trans (Repository.follows_register p)
  have hs : s.forms.Reachable := hfollows.forms.reachable hr.forms
  have hclash : ¬ Clashes p.reports := by
    rintro ⟨symbol,name,hm⟩
    rw [show p.reports = [] from hclean] at hm
    cases hm
  have hrepeats : Repeats p (ofNode v c root s) :=
    repeats_ofNode hr.forms (hr.catalogue consulted) hclash hs hregistrable.entered.marks
  have hreports : (ofNode v c root s).reports = [] := by
    have hperm := hrepeats.reports
    rw [show p.reports = [] from hclean] at hperm
    exact List.nil_perm.mp hperm
  have hq : q = ofNode v c root s := by
    refine ofNode_of_within (Catalogue.within_of_follows hfollows consulted)
      (cleanDocument_of_names (fun name id hid => ?_) hreports)
    exact hfollows.forms.grows.name id name
      (hr.name?_of_form? (Catalogue.form?_of_ofRepository hid))
  rw [hq]
  exact ⟨hrepeats,hreports⟩

theorem Reading.Repeats.register_eq_self {p q : Reading} (h : Repeats p q)
    (hu : q.repository.forms.NamesUnique)
    (hforms : ∀ e ∈ p.forms, q.repository.HoldsForm e.2)
    (hdenotators : ∀ e ∈ p.symbols.denotators, q.repository.HoldsDenotator e.2) :
    q.register = q := by
  refine Reading.register_eq_self hu (fun e he => ?_) fun e he => ?_
  · obtain ⟨x,hx,hsimilar⟩ := exists_of_forall₂_right h.forms (List.mem_map_of_mem he)
    obtain ⟨e',he',rfl⟩ := List.mem_map.mp hx
    exact (hforms e' he').similar hsimilar
  · obtain ⟨e',he',-,halike⟩ := exists_of_forall₂_right h.denotatorSymbols he
    exact (hdenotators e' he').alike hu halike

theorem Reading.register_again {r : Repository} (hr : r.Reachable) {v : Vocabulary}
    {consulted : Bool} {root : Node}
    (hclean : (ofNode v (.ofRepository r consulted) root r).reports = [])
    (hquiet : (ofNode v (.ofRepository r consulted) root r).register.reports = []) :
    let p := ofNode v (.ofRepository r consulted) root r
    let s := p.register.repository
    let q := ofNode v (.ofRepository s consulted) root s
    Repeats p q ∧ q.reports = [] ∧ q.register = q := by
  intro p s q
  obtain ⟨hrepeats,hreports⟩ := ofNode_register hr hclean
  have hread : r.Follows p.repository := Repository.follows_ofNode _ _ root r
  have hp : p.repository.forms.Reachable := hread.forms.reachable hr.forms
  have hs : s.forms.Reachable := (Repository.follows_register p).forms.reachable hp
  have hagain : s.Follows q.repository := Repository.follows_ofNode _ _ root s
  obtain ⟨hforms,hdenotators⟩ := holds_of_register hp (hquiet.trans hclean.symm)
  exact ⟨hrepeats,hreports,
    hrepeats.register_eq_self (hagain.forms.reachable hs).sound.namesUnique
      (fun e he => (hforms e he).follows hagain) fun e he => (hdenotators e he).follows hs hagain⟩

theorem Reading.same_register {p : Reading} (h : p.register.reports = p.reports) :
    Same p p.register :=
  have hr := registered_register p
  ⟨hr.forms,hr.denotators,hr.symbols,h⟩

theorem Reader.readNode_of_clean {a : Reader} {root : Node} {r : Repository}
    (hd : a.settings.registerDecoded)
    (h : (Reading.ofNode a.vocabulary (.ofRepository r a.settings.catalogFallback) root r).reports =
      []) :
    let g := Reading.ofNode a.vocabulary (.ofRepository r a.settings.catalogFallback) root r
    let o := Outcome.ofReading g.register a.settings.maxErrors
    a.readNode root r = (o,{a with status := .ofOutcome o},g.register.repository) := by
  simp [readNode,Outcome.ofNode,hd,h]

theorem Reader.reports_register_of_isSuccess {a : Reader} {root : Node} {r : Repository}
    (hd : a.settings.registerDecoded) (h : (a.readNode root r).1.isSuccess) :
    (Reading.ofNode a.vocabulary (.ofRepository r a.settings.catalogFallback) root
      r).register.reports = [] := by
  rw [readNode_of_clean hd (reports_of_isSuccess h)] at h
  exact (Manuscript.isSuccess_ofReading_iff _ _).mp h

theorem Reader.readNode_twice {r : Repository} (hr : r.Reachable) {a : Reader}
    (hd : a.settings.registerDecoded) {root : Node} (h : (a.readNode root r).1.isSuccess) :
    let first := a.readNode root r
    let second := first.2.1.readNode root first.2.2
    let p := Reading.ofNode a.vocabulary (.ofRepository r a.settings.catalogFallback) root r
    let q := Reading.ofNode a.vocabulary (.ofRepository first.2.2 a.settings.catalogFallback) root
      first.2.2
    Reading.Repeats p q ∧ q.reports = [] ∧ first.1 = .ofReading p a.settings.maxErrors ∧
    second.1 = .ofReading q a.settings.maxErrors ∧ second.2.2 = q.repository ∧
    r.Follows second.2.2 := by
  intro first second p q
  have hclean : p.reports = [] := reports_of_isSuccess h
  have hquiet : p.register.reports = [] := reports_register_of_isSuccess hd h
  have hfirst : first = _ := readNode_of_clean hd hclean
  have hs : first.2.2 = p.register.repository := by rw [hfirst]
  obtain ⟨hrepeats,hreports,hregister⟩ :
      Reading.Repeats p q ∧ q.reports = [] ∧ q.register = q := by
    simp only [q,hs]
    exact Reading.register_again hr hclean hquiet
  have hsecond : second = (.ofReading q.register a.settings.maxErrors,_,q.register.repository) :=
    readNode_of_clean (a := first.2.1) hd hreports
  rw [hregister] at hsecond
  refine ⟨hrepeats,hreports,?_,by rw [hsecond],by rw [hsecond],?_⟩
  · rw [hfirst]
    exact Outcome.ofReading_eq_of_same (Reading.same_register (hquiet.trans hclean.symm)) _
  · rw [hsecond]
    refine ((Repository.follows_ofNode _ _ root r).trans (Repository.follows_register p)).trans ?_
    exact hs ▸ Repository.follows_ofNode _ _ root first.2.2

/-- A document that is read and registered without errors can be read again: it comes to the same,
up to equality, and every name in the repository stands for what it stood for. -/
theorem Reader.readNode_again {r : Repository} (hr : r.Reachable) {a : Reader}
    (hd : a.settings.registerDecoded) {root : Node} (h : (a.readNode root r).1.isSuccess) :
    let first := a.readNode root r
    let second := first.2.1.readNode root first.2.2
    let o := first.1
    let o' := second.1
    let s := second.2.2
    o'.isSuccess ∧ s.form? = first.2.2.form? ∧ s.denotators = first.2.2.denotators ∧
    List.Forall₂ (fun x y => x.1 = y.1 ∧ s.forms.sameForm x.2 y.2) o.symbols.forms
      o'.symbols.forms ∧
    List.Forall₂ (fun x y => x.1 = y.1 ∧ x.2.equals s.forms y.2) o.symbols.denotators
      o'.symbols.denotators ∧
    o.symbols.modules = o'.symbols.modules ∧ o.symbols.elements = o'.symbols.elements ∧
    o.symbols.morphisms = o'.symbols.morphisms ∧
    List.Forall₂ (fun x y => s.forms.sameForm x y) o.forms o'.forms ∧
    List.Forall₂ (fun d e => d.equals s.forms e) o.denotators o'.denotators := by
  intro first second o o' s
  obtain ⟨hrepeats,hreports,ho,ho',hs,hfollows⟩ := readNode_twice hr hd h
  have hu := (hfollows.forms.reachable hr.forms).sound.namesUnique
  rw [hs] at hu
  have hsame (x y : FormId) := (FormGraph.sameForm_iff_similar hu x y).mpr
  have hequals (x y : Denotator) := (Denotator.equals_iff_alike hu x y).mpr
  rw [show o = _ from ho,show o' = _ from ho',show s = _ from hs]
  exact ⟨(Manuscript.isSuccess_ofReading_iff _ _).mpr hreports,Reading.form?_ofNode _ _ _ _,rfl,
    hrepeats.formSymbols.imp fun x y hxy => ⟨hxy.1,hsame _ _ hxy.2⟩,
    hrepeats.denotatorSymbols.imp fun x y hxy => ⟨hxy.1,hequals _ _ hxy.2⟩,hrepeats.modules,
    hrepeats.elements,hrepeats.morphisms,hrepeats.forms.imp hsame,hrepeats.denotators.imp hequals⟩

/-- A song is registered once; of its forms there are copies afterwards. -/
theorem Reader.readNode_songs :
    let first := registering.readNode .song .pitches
    let second := first.2.1.readNode .song first.2.2
    let s := second.2.2
    first.1.isSuccess ∧ first.2.2.form? "Song" = some ⟨3⟩ ∧
    first.1.symbols.forms = [("Beat",⟨1⟩),("Note",⟨2⟩),("Song",⟨3⟩)] ∧
    second.1.symbols.forms = [("Beat",⟨4⟩),("Note",⟨5⟩),("Song",⟨6⟩)] ∧
    second.1.symbols.denotators.map Prod.fst = ["First"] ∧
    second.1.isSuccess ∧ s.form? = first.2.2.form? ∧ s.denotators = first.2.2.denotators ∧
    List.Forall₂ (fun x y => x.1 = y.1 ∧ s.forms.sameForm x.2 y.2) first.1.symbols.forms
      second.1.symbols.forms ∧
    List.Forall₂ (fun x y => x.1 = y.1 ∧ x.2.equals s.forms y.2) first.1.symbols.denotators
      second.1.symbols.denotators := by
  intro first second s
  have hfirst : first.1.isSuccess ∧ first.2.2.form? "Song" = some ⟨3⟩ ∧
      first.1.symbols.forms = [("Beat",⟨1⟩),("Note",⟨2⟩),("Song",⟨3⟩)] := by cbv
  have hsecond : second.1.symbols.forms = [("Beat",⟨4⟩),("Note",⟨5⟩),("Song",⟨6⟩)] ∧
      second.1.symbols.denotators.map Prod.fst = ["First"] := by cbv
  obtain ⟨hsuccess,hsong,hforms⟩ := hfirst
  obtain ⟨hagain,hform,hdenotators,hsame,hequal,-⟩ :=
    readNode_again (r := .pitches) ⟨_,rfl⟩ (a := registering) rfl hsuccess
  exact ⟨hsuccess,hsong,hforms,hsecond.1,hsecond.2,hagain,hform,hdenotators,hsame,hequal⟩

end AddressedForms
