import HeapFlow.CommandLine.Run
import HeapFlow.Proofs.Findings
import HeapFlow.Proofs.Naming
import HeapFlow.Proofs.PolicyNames

/-!
# Where dumps are filed

The file of a dump is named after the stem of the program's path and the name of the policy. Both
say less than what a run goes by, so two results can have one file, and then the later one replaces
the earlier. What a run writes is seen on a host that keeps a log (`Host.logged`): each step of a
run has a plan of what it writes (`Writes`), and the plan of a run is made up of these.
-/

namespace HeapFlow

open List

namespace Policy

/-- The name of a policy has neither dots nor slashes. -/
theorem not_mem_name {x : Char} (hx : x = '.' ∨ x = '/') (c : Policy) : x ∉ c.name.toList := by
  have hdigits : ∀ n : Nat, x ∉ Nat.toDigits 10 n := by
    intro n hmem
    have hx' := Nat.isDigit_of_mem_toDigits (by decide) (by decide) hmem
    rcases hx with rfl | rfl <;> exact absurd hx' (by decide)
  rcases hx with rfl | rfl <;> cases c <;> simp [name, hdigits]

end Policy

namespace Text

variable {sep : Char}

theorem splitOnChar_ne_nil (s : List Char) : splitOnChar sep s ≠ [] := by
  cases s with
  | nil => simp [splitOnChar]
  | cons c s =>
    unfold splitOnChar
    split
    · simp
    · split <;> simp

variable {s : List Char}

theorem splitOnChar_of_not_mem (h : sep ∉ s) : splitOnChar sep s = [s] := by
  induction s with
  | nil => rfl
  | cons c s ih =>
    rw [mem_cons, not_or] at h
    rw [splitOnChar, if_neg (Ne.symm h.1), ih h.2]

/-- The last piece of a text is what follows the last separator. -/
theorem splitOnChar_append {t : List Char} (h : sep ∉ t) :
    splitOnChar sep (s ++ sep :: t) = splitOnChar sep s ++ [t] := by
  induction s with
  | nil => simp [splitOnChar, splitOnChar_of_not_mem h]
  | cons c s ih =>
    rw [cons_append, splitOnChar, splitOnChar, ih]
    split
    · rfl
    · cases hs : splitOnChar sep s with
      | nil => exact absurd hs (splitOnChar_ne_nil s)
      | cons piece pieces => rfl

end Text

theorem Program.accepted_of_ofText {text : String} {p : Program}
    (hp : Program.ofText text = .ok p) : p.Accepted := by
  unfold Program.ofText at hp
  split at hp
  · cases hp
  · rename_i source _
    split at hp <;> cases hp
    exact ⟨source, ‹_›⟩

namespace CommandLine

namespace Path

/-- What tells apart the dumps of programs: the stem of the path. The stem of the root is its slash,
which is lost in front of the rest of the name. -/
def title (path : String) : String :=
  if stem path = "/" then "" else stem path

theorem not_mem_title (path : String) : '/' ∉ (title path).toList := by
  have hname : lastName path = "/" ∨ '/' ∉ (lastName path).toList := by
    unfold lastName
    dsimp only
    split
    · exact .inr (by decide)
    · split
      · exact .inl rfl
      · refine .inr fun hmem => ?_
        rw [String.toList_ofList, mem_reverse] at hmem
        simpa using mem_takeWhile_imp hmem
  have hstem : (stem path).toList <+: (lastName path).toList := by
    unfold stem
    dsimp only
    rw [String.toList_ofList]
    split
    · exact take_prefix _ _
    · exact prefix_refl _
  unfold title
  split
  · simp
  · rename_i hne
    rcases hname with hname | hname
    · rw [hname, show "/".toList = ['/'] from rfl, prefix_cons_iff] at hstem
      rcases hstem with hnil | ⟨t, ht, htail⟩
      · simp [hnil]
      · rw [prefix_nil.mp htail] at ht
        exact absurd (String.toList_inj.mp ht) hne
    · exact fun hmem => hname (hstem.subset hmem)

variable {dir name a b : String}

theorem names_append (h : '/' ∉ name.toList) :
    names (dir ++ "/" ++ name) = names dir ++ [name] := by
  have hlist : (dir ++ "/" ++ name).toList = dir.toList ++ '/' :: name.toList := by simp
  rw [names, hlist, Text.splitOnChar_append h, map_append]
  simp [names]

/-- A name that leads on from where it stands. -/
def Plain (name : String) : Prop :=
  '/' ∉ name.toList ∧ name ≠ "" ∧ name ≠ "." ∧ name ≠ ".."

theorem simplify_append {rooted : Bool} (done ns ms : List String) :
    simplify rooted done (ns ++ ms) = simplify rooted (simplify rooted done ns).reverse ms := by
  induction ns generalizing done with
  | nil => rw [nil_append, simplify, reverse_reverse]
  | cons n ns ih =>
    rw [cons_append, simplify.eq_def, simplify.eq_def rooted done (n :: ns)]
    dsimp only
    split
    · exact ih _
    · split
      · split
        · split <;> exact ih _
        · exact ih _
      · exact ih _

/-- The clean path of a directory, with a name behind. -/
def filed (dir name : String) : String :=
  (if isRooted (dir ++ "/") then "/" else "") ++
    "/".intercalate (simplify (isRooted (dir ++ "/")) [] (names dir) ++ [name])

theorem exists_intercalate_eq (ns : List String) :
    ∃ base : String, ∀ name, "/".intercalate (ns ++ [name]) = base ++ name := by
  cases ns with
  | nil => exact ⟨"", by simp⟩
  | cons n ns =>
    refine ⟨"/".intercalate (n :: ns) ++ "/", fun name => ?_⟩
    rw [String.intercalate_append_of_ne_nil (by simp) (by simp), String.intercalate_singleton]

/-- Different names give different paths. -/
theorem filed_inj (h : filed dir a = filed dir b) : a = b := by
  obtain ⟨base, hbase⟩ := exists_intercalate_eq (simplify (isRooted (dir ++ "/")) [] (names dir))
  rw [filed, filed, hbase, hbase] at h
  simpa [← String.toList_inj] using h

theorem clean_eq_filed {path : String} {ns : List String}
    (hrooted : isRooted path = isRooted (dir ++ "/")) (hnames : names path = names dir ++ ns)
    (hns : ∀ rooted done, simplify rooted done ns = done.reverse ++ [name]) (hname : name ≠ "") :
    clean path = filed dir name := by
  rw [clean, filed, hrooted, hnames, simplify_append, hns, reverse_reverse]
  obtain ⟨base, hbase⟩ := exists_intercalate_eq (simplify (isRooted (dir ++ "/")) [] (names dir))
  rw [hbase]
  split
  · rfl
  · rw [if_neg (by simp [hname]), String.empty_append]

theorem isRooted_append (dir name : String) :
    isRooted (dir ++ "/" ++ name) = isRooted (dir ++ "/") := by
  cases hdir : dir.toList <;> simp [isRooted, hdir]

/-- A name in a directory. -/
theorem inside_eq_filed (h : Plain name) : inside dir name = filed dir name := by
  obtain ⟨hslash, h₁, h₂, h₃⟩ := h
  exact clean_eq_filed (isRooted_append dir name) (names_append hslash)
    (by simp [simplify, h₁, h₂, h₃]) h₁

theorem inside_slash (h : Plain name) : inside dir ("/" ++ name) = filed dir name := by
  obtain ⟨hslash, h₁, h₂, h₃⟩ := h
  have hnames : names (dir ++ "/" ++ ("/" ++ name)) = names dir ++ ["", name] := by
    rw [← String.append_assoc, names_append hslash]
    have hdir : names (dir ++ "/" ++ "") = names dir ++ [""] := names_append (by simp)
    rw [String.append_empty] at hdir
    rw [hdir, append_assoc]
    rfl
  exact clean_eq_filed (isRooted_append dir _) hnames (by simp [simplify, h₁, h₂, h₃]) h₁

def dumpName (program : String) (c : Policy) : String :=
  title program ++ "." ++ c.name ++ ".txt"

theorem toList_dumpName (program : String) (c : Policy) :
    (dumpName program c).toList =
      ((title program).toList ++ '.' :: c.name.toList) ++ ['.', 't', 'x', 't'] := by
  simp [dumpName]

theorem plain_dumpName (program : String) (c : Policy) : Plain (dumpName program c) := by
  have hlast : (dumpName program c).toList.getLast? = some 't' := by
    rw [toList_dumpName, getLast?_append]
    rfl
  refine ⟨?_, ?_, ?_, ?_⟩
  · simp [toList_dumpName, not_mem_title, c.not_mem_name]
  all_goals
    intro h
    rw [h] at hlast
    cases hlast

/-- The path of a dump. -/
theorem ofDump_eq_filed (dir program : String) (c : Policy) :
    ofDump dir program c.name = filed dir (dumpName program c) := by
  rw [ofDump]
  by_cases hstem : stem program = "/"
  · have hname : stem program ++ "." ++ c.name ++ ".txt" = "/" ++ dumpName program c := by
      simp [← String.toList_inj, dumpName, title, hstem]
    rw [hname, inside_slash (plain_dumpName program c)]
  · rw [← inside_eq_filed (plain_dumpName program c), dumpName, title, if_neg hstem]

/-- **Two dumps have one path exactly if titles and policies are the same.** -/
theorem ofDump_eq_iff {c d : Policy} :
    ofDump dir a c.name = ofDump dir b d.name ↔ title a = title b ∧ c = d := by
  rw [ofDump_eq_filed, ofDump_eq_filed]
  constructor
  · intro h
    have hname := String.toList_inj.mpr (filed_inj h)
    rw [toList_dumpName, toList_dumpName, append_cancel_right_eq] at hname
    obtain ⟨htitle, hpolicy⟩ := append_cons_inj_of_not_mem (c.not_mem_name (.inl rfl))
      (d.not_mem_name (.inl rfl)) hname
    exact ⟨String.toList_inj.mp htitle, Policy.name_injective (String.toList_inj.mp hpolicy)⟩
  · rintro ⟨h, rfl⟩
    rw [dumpName, dumpName, h]

end Path

def dumpPaths (dir : String) (programs : List String) (policies : List Policy) : List String :=
  programs.flatMap fun program => policies.map fun c => Path.ofDump dir program c.name

/-- **Dumps have different paths exactly if programs have different titles and no policy is there
twice.** -/
theorem nodup_dumpPaths_iff {dir : String} {programs : List String} {policies : List Policy}
    (hprograms : programs ≠ []) (hpolicies : policies ≠ []) :
    (dumpPaths dir programs policies).Nodup ↔ (programs.map Path.title).Nodup ∧ policies.Nodup := by
  have hinj : ∀ program, Function.Injective fun c : Policy => Path.ofDump dir program c.name :=
    fun program c d h => (Path.ofDump_eq_iff.mp h).2
  obtain ⟨program, hprogram⟩ := exists_mem_of_ne_nil _ hprograms
  obtain ⟨c, hc⟩ := exists_mem_of_ne_nil _ hpolicies
  rw [dumpPaths, nodup_flatMap, and_comm]
  refine and_congr ?_ ?_
  · rw [List.Nodup, pairwise_map]
    refine List.Pairwise.iff fun {a b} => ⟨fun h htitle => ?_, fun htitle => ?_⟩
    · refine h (mem_map.mpr ⟨c, hc, rfl⟩) (mem_map.mpr ⟨c, hc, ?_⟩)
      exact Path.ofDump_eq_iff.mpr ⟨htitle.symm, rfl⟩
    · intro path ha hb
      obtain ⟨d, -, rfl⟩ := mem_map.mp ha
      obtain ⟨e, -, he⟩ := mem_map.mp hb
      exact htitle (Path.ofDump_eq_iff.mp he).1.symm
  · simp only [nodup_map_iff (hinj _)]
    exact ⟨fun h => h program hprogram, fun h _ _ => h⟩

def Settings.metricsPaths (s : Settings) : List String :=
  if s.metrics.isEmpty then [] else [s.metrics]

section Logging

variable {σ α β : Type}

/-- The same host, which keeps a log of the paths that have been written. -/
def Host.logged (h : Host (StateM σ)) : Host (StateM (σ × List String)) where
  read path := fun st => ((h.read path st.1).1, (h.read path st.1).2, st.2)
  write path text := fun st =>
    let (a, s) := h.write path text st.1
    (a, s, if a.isOk then st.2 ++ [path] else st.2)
  makeDirs path := fun st => ((h.makeDirs path st.1).1, (h.makeDirs path st.1).2, st.2)
  clock := fun st => ((h.clock st.1).1, (h.clock st.1).2, st.2)
  help := h.help
  malformed := h.malformed

/-- A step of a run on a host with a log. -/
abbrev Logged (σ α : Type) := ExceptT RunError (StateM (σ × List String)) α

/-- What a step of a run gives, and the state and the log afterwards. -/
def Logged.runFrom (x : Logged σ α) (st : σ × List String) : Except RunError α × σ × List String :=
  x st

theorem Logged.runFrom_bind (x : Logged σ α) (f : α → Logged σ β) (st : σ × List String) :
    Logged.runFrom (x >>= f) st = (ExceptT.bindCont f (x.runFrom st).1).run (x.runFrom st).2 :=
  rfl

variable {st₁ : σ × List String} {os : List Options} {policies : List Policy} {o : Options}
  {more : List Observer} {p : Program}

theorem Logged.runFrom_bind_of_ok {x : Logged σ α} {f : α → Logged σ β} {a : α}
    {st : σ × List String} (h : x.runFrom st = (.ok a, st₁)) :
    Logged.runFrom (x >>= f) st = (f a).runFrom st₁ := by
  rw [runFrom_bind, h]
  rfl

/-- **A step writes as planned**: the paths that it writes are a beginning of the plan, and all of
it if the step succeeds; then what it gives has a property. If one can be `sure`, it does
succeed. -/
def Writes (sure : Prop) (plan : List String) (x : Logged σ α) (Q : α → Prop) : Prop :=
  ∀ st, ∃ done, (x.runFrom st).2.2 = st.2 ++ done ∧ done <+: plan ∧
    (sure → ∃ a, (x.runFrom st).1 = .ok a) ∧ ∀ a, (x.runFrom st).1 = .ok a → done = plan ∧ Q a

variable {sure : Prop}

namespace Writes

variable {P S : List String} {x : Logged σ α} {f : α → Logged σ β} {Q : α → Prop} {R : β → Prop}

theorem pure {a : α} (ha : Q a) : Writes sure [] (Pure.pure a : Logged σ α) Q := by
  intro st
  refine ⟨[], (append_nil _).symm, nil_prefix, fun _ => ⟨a, rfl⟩, ?_⟩
  rintro b ⟨⟩
  exact ⟨rfl, ha⟩

theorem throw (hsure : ¬ sure) (e : RunError) :
    Writes sure P (MonadExcept.throw e : Logged σ α) Q := by
  intro st
  refine ⟨[], (append_nil _).symm, nil_prefix, fun h => absurd h hsure, ?_⟩
  rintro b ⟨⟩

/-- Steps one after the other write one plan after the other. -/
theorem bind (hx : Writes sure P x Q) (hf : ∀ a, Q a → Writes sure S (f a) R) :
    Writes sure (P ++ S) (x >>= f) R := by
  intro st
  obtain ⟨done, hlog, hprefix, hsure, hok⟩ := hx st
  rw [Logged.runFrom_bind]
  rcases hres : (x.runFrom st).1 with e | a
  · refine ⟨done, hlog, hprefix.trans (prefix_append _ _), fun h => ?_, by rintro b ⟨⟩⟩
    obtain ⟨a, ha⟩ := hsure h
    cases hres.symm.trans ha
  · obtain ⟨rfl, ha⟩ := hok a hres
    obtain ⟨done', hlog', hprefix', hsure', hok'⟩ := hf a ha (x.runFrom st).2
    refine ⟨done ++ done', ?_, (prefix_append_right_inj _).mpr hprefix', hsure', fun b hb => ?_⟩
    · rw [← append_assoc, ← hlog]
      exact hlog'
    · obtain ⟨rfl, hb⟩ := hok' b hb
      exact ⟨rfl, hb⟩

/-- So do the rounds of a loop. -/
theorem foldlM {f : β → α → Logged σ β} {plan : α → List String} {l : List α}
    (hf : ∀ b, ∀ a ∈ l, Writes sure (plan a) (f b a) fun _ => True) (b : β) :
    Writes sure (l.flatMap plan) (l.foldlM f b) fun _ => True := by
  induction l generalizing b with
  | nil => exact .pure trivial
  | cons a l ih =>
    rw [foldlM_cons, flatMap_cons]
    exact (hf b a (.head _)).bind fun b' _ =>
      ih (fun b a ha => hf b a (.tail _ ha)) b'

theorem mapM {f : α → Logged σ β} {g : β → α}
    (hf : ∀ a, Writes sure [] (f a) fun b => g b = a ∧ R b) (l : List α) :
    Writes sure [] (l.mapM f) fun bs => bs.map g = l ∧ ∀ b ∈ bs, R b := by
  induction l with
  | nil => exact .pure (by simp)
  | cons a l ih =>
    rw [mapM_cons]
    refine (hf a).bind (P := []) fun b hb => ih.bind (P := []) fun bs hbs => .pure ?_
    rw [map_cons, hb.1, hbs.1, forall_mem_cons]
    exact ⟨rfl, hb.2, hbs.2⟩

end Writes

/-! ### The steps of a run -/

/-- Nothing fails: every file is an accepted program, and every file can be written. -/
structure Host.Obliges (h : Host (StateM σ)) : Prop where
  read : ∀ path st, ∃ text p, (h.read path st).1 = .ok text ∧ Program.ofText text = .ok p
  write : ∀ path text st, (h.write path text st).1 = .ok ()
  makeDirs : ∀ path st, (h.makeDirs path st).1 = .ok ()

variable {h : Host (StateM σ)} {s : Settings}

theorem writes_attempt {wrap : FileError → RunError}
    {x : StateM (σ × List String) (Except FileError α)} {plan : List String}
    (hx : ∀ st, (x st).2.2 = if (x st).1.isOk then st.2 ++ plan else st.2)
    (hsure : sure → ∀ st, ∃ a, (x st).1 = .ok a) :
    Writes sure plan (attempt wrap x) fun a => ∃ st, (x st).1 = .ok a := by
  intro st
  have hrun : Logged.runFrom (attempt wrap x) st = ((x st).1.mapError wrap, (x st).2) := by
    simp only [Logged.runFrom, attempt, ExceptT.mk, bind, StateT.bind]
    rcases x st with ⟨_ | a, st₁⟩ <;> rfl
  rw [hrun, hx]
  rcases hres : (x st).1 with e | a
  · refine ⟨[], (append_nil _).symm, nil_prefix, fun h => ?_, by rintro b ⟨⟩⟩
    obtain ⟨a, ha⟩ := hsure h st
    cases hres.symm.trans ha
  · refine ⟨plan, rfl, prefix_refl _, fun _ => ⟨a, rfl⟩, ?_⟩
    rintro b ⟨⟩
    exact ⟨rfl, st, hres⟩

theorem writes_read (h : Host (StateM σ)) (wrap : FileError → RunError) (path : String) :
    Writes h.Obliges [] (attempt wrap (h.logged.read path))
      fun text => ∃ st, (h.logged.read path st).1 = .ok text := by
  refine writes_attempt (fun st => by simp [Host.logged]) fun hh st => ?_
  obtain ⟨text, -, htext, -⟩ := hh.read path st.1
  exact ⟨text, htext⟩

/-- Reading the options writes nothing. -/
theorem writes_analysisOptions (h : Host (StateM σ)) (s : Settings) :
    Writes False [] (analysisOptions h.logged s) fun os => ∃ o, s.optionSets o = .ok os := by
  have hload : Writes False [] (loadOptions h.logged s) fun _ => True := by
    unfold loadOptions
    split
    · exact .pure trivial
    · refine Writes.bind (P := []) (writes_attempt (fun st => by simp [Host.logged]) False.elim)
        fun text _ => ?_
      split
      · exact .pure trivial
      all_goals exact .throw id _
  refine hload.bind (P := []) fun o _ => ?_
  split
  · exact .pure ⟨o, ‹_›⟩
  · exact .throw id _

theorem writes_loadProgram (h : Host (StateM σ)) (path : String) :
    Writes h.Obliges [] (loadProgram h.logged path) fun x => x.1 = path ∧ x.2.Accepted := by
  refine (writes_read h _ path).bind (P := []) fun text htext => ?_
  obtain ⟨st, htext⟩ := htext
  split
  · exact .pure ⟨rfl, Program.accepted_of_ofText ‹_›⟩
  · rename_i hfail
    refine .throw (fun hh => ?_) _
    obtain ⟨text', p, htext', hp⟩ := hh.read path st.1
    cases Except.ok.inj (htext.symm.trans htext')
    cases hfail.symm.trans hp

theorem writes_write (h : Host (StateM σ)) (wrap : FileError → RunError) (path text : String) :
    Writes h.Obliges [path] (attempt wrap (h.logged.write path text))
      fun a => ∃ st, (h.logged.write path text st).1 = .ok a :=
  writes_attempt (fun _ => rfl) fun hh st => ⟨(), hh.write _ _ st.1⟩

/-- A result is written to its dump. -/
theorem writes_addResult (hdump : s.dump ≠ "") (path : String) (found : Findings) (r : Result) :
    Writes h.Obliges [Path.ofDump s.dump path r.policy.name] (addResult h.logged s path found r)
      fun _ => True := by
  have hdirs : Writes h.Obliges [] (attempt .dumpDirectory (h.logged.makeDirs s.dump)) _ :=
    writes_attempt (fun st => by simp [Host.logged]) fun hh st => ⟨(), hh.makeDirs _ st.1⟩
  have hwrite := hdirs.bind fun _ _ =>
    writes_write h .dump (Path.ofDump s.dump path r.policy.name) r.dump
  rw [addResult, writeDump, if_neg (by simpa using hdump)]
  exact hwrite.bind fun _ _ => .pure trivial

theorem writes_writeMetrics (h : Host (StateM σ)) (s : Settings) (found : Findings) :
    Writes h.Obliges s.metricsPaths (do
      writeMetrics h.logged s found
      Pure.pure found) fun _ => True := by
  rw [← append_nil s.metricsPaths]
  unfold writeMetrics Settings.metricsPaths
  split
  · exact .pure trivial
  · exact (writes_write h _ _ _).bind fun _ _ => .pure trivial

/-- Options name a policy. -/
def Names (o : Options) (c : Policy) : Prop :=
  Policy.parse o.cs = .ok c

theorem policies_unique {policies' : List Policy} (hos : List.Forall₂ Names os policies)
    (hos' : List.Forall₂ Names os policies') : policies = policies' := by
  have hunique : Relator.RightUnique Names := fun _ _ _ hc hd => Except.ok.inj (hc.symm.trans hd)
  exact hunique.forall₂ hos hos'

/-- Accepted options name policies. -/
theorem exists_policies (hos : s.optionSets o = .ok os) :
    ∃ policies, List.Forall₂ Names os policies ∧ policies ≠ [] := by
  have hnamed : ∀ o' ∈ os, ∃ c, Names o' c := by
    intro o' ho'
    obtain ⟨cs, -, h⟩ := exists_of_mem_mapM hos ho'
    obtain ⟨c, hc, h⟩ := exists_of_bind_ok h
    cases h
    exact ⟨c, hc⟩
  choose! c hc using hnamed
  refine ⟨os.map c, forall₂_map_right_iff.mpr (forall₂_same.mpr hc), ?_⟩
  have hpolicies : s.policies o ≠ [] := by
    unfold Settings.policies
    split
    · exact cons_ne_nil _ _
    · rename_i hne
      obtain ⟨cs, hcs⟩ := exists_mem_of_ne_nil _ hne
      exact ne_nil_of_mem (mem_eraseDups.mpr hcs)
  have hlength := (forall₂_of_mapM hos).length_eq
  rw [ne_eq, ← length_eq_zero_iff, length_map, ← hlength, length_eq_zero_iff]
  exact hpolicies

theorem names_policy {r : Result} (hr : analyzeNamed p o more = .ok r) : Names o r.policy := by
  unfold analyzeNamed at hr
  split at hr
  · cases hr
  · rename_i c hc
    split at hr
    · cases hr
    · rename_i r' hr'
      cases hr
      simp only [analyze, Machine.result] at hr'
      split at hr' <;> cases hr'
      exact hc

/-- Accepted programs have results under all policies. -/
theorem exists_results (hp : p.Accepted) (hos : List.Forall₂ Names os policies)
    (hmore : ∀ w ∈ more, w.Watches) :
    ∃ results, os.mapM (fun o => analyzeNamed p { o with checkConstraints := false } more) =
      .ok results := by
  induction hos with
  | nil => exact ⟨[], rfl⟩
  | @cons o c os policies hc _ ih =>
    obtain ⟨results, hresults⟩ := ih
    obtain ⟨r, hr, -⟩ := exists_analyze_eq_ok hp { o with checkConstraints := false } c hmore
    refine ⟨r :: results, ?_⟩
    rw [mapM_cons, hresults, analyzeNamed, show Policy.parse o.cs = .ok c from hc]
    simp only [hr]
    rfl

theorem Settings.watches_observers (s : Settings) (check : Bool) :
    ∀ w ∈ s.observers check, w.Watches := by
  intro w hw
  unfold observers at hw
  rcases mem_append.mp hw with hw | hw <;> split at hw <;> simp_all [Observer.Watches]

/-- A program is dumped under all policies. -/
theorem writes_analyzeProgram (hdump : s.dump ≠ "") (hos : List.Forall₂ Names os policies)
    (found : Findings) {x : String × Program} (hx : x.2.Accepted) :
    Writes h.Obliges (policies.map fun c => Path.ofDump s.dump x.1 c.name)
      (analyzeProgram h.logged s os found x) fun _ => True := by
  obtain ⟨path, p⟩ := x
  obtain ⟨results, hresults⟩ := exists_results hx hos (s.watches_observers _)
  have hnames : List.Forall₂ Names os (results.map (·.policy)) :=
    forall₂_map_right_iff.mpr ((forall₂_of_mapM hresults).imp fun _ _ hr => names_policy hr)
  unfold analyzeProgram
  dsimp only
  rw [hresults, policies_unique hos hnames, map_map, map_eq_flatMap, ← append_nil
    (results.flatMap _)]
  refine (Writes.foldlM (fun found r _ => writes_addResult hdump path found r) found).bind
    fun found _ => ?_
  split <;> exact .pure trivial

theorem writes_analyzeUnder (h : Host (StateM σ)) (hdump : s.dump ≠ "")
    (hos : List.Forall₂ Names os policies) :
    Writes h.Obliges (dumpPaths s.dump s.programs policies ++ s.metricsPaths)
      (analyzeUnder h.logged s os) fun _ => True := by
  refine (Writes.mapM (writes_loadProgram h) s.programs).bind (P := []) fun programs hall => ?_
  obtain ⟨hpaths, haccepted⟩ := hall
  have hplan : dumpPaths s.dump s.programs policies =
      programs.flatMap fun x => policies.map fun c => Path.ofDump s.dump x.1 c.name := by
    rw [dumpPaths, ← hpaths, flatMap_map]
  rw [hplan]
  exact (Writes.foldlM (fun found x hx => writes_analyzeProgram hdump hos found (haccepted x hx))
    _).bind fun found _ => writes_writeMetrics h s found

/-- With accepted options, a run analyses the programs under the policies that they name. -/
theorem analyzePrograms_eq {st : σ}
    (haccepted : Logged.runFrom (analysisOptions h.logged s) (st, []) = (.ok os, st₁)) :
    ∃ policies, List.Forall₂ Names os policies ∧ policies ≠ [] ∧
      Logged.runFrom (analyzePrograms h.logged s) (st, []) =
        Logged.runFrom (analyzeUnder h.logged s os) (st₁.1, []) := by
  obtain ⟨done, hlog, -, -, hok⟩ := writes_analysisOptions h s (st, [])
  rw [haccepted] at hlog hok
  obtain ⟨rfl, o, hos⟩ := hok os rfl
  obtain ⟨policies, hpolicies, hne⟩ := exists_policies hos
  refine ⟨policies, hpolicies, hne, ?_⟩
  have hst : st₁ = (st₁.1, []) := Prod.ext rfl hlog
  rw [← hst]
  exact Logged.runFrom_bind_of_ok haccepted

end Logging

/-- The host on which every file is empty. An empty file is a program without classes. -/
def Host.blank : Host (StateM Unit) where
  read _ := Pure.pure (.ok "")
  write _ _ := Pure.pure (.ok ())
  makeDirs _ := Pure.pure (.ok ())
  clock := Pure.pure 0
  help := ""
  malformed := ""

theorem Host.obliges_blank : Host.blank.Obliges where
  read _ _ := by
    obtain ⟨p, hp, -⟩ := exists_of_any_toOption (x := Program.ofText "") (P := fun _ => True)
      (by decide +kernel)
    exact ⟨"", p, rfl, hp⟩
  write _ _ _ := rfl
  makeDirs _ _ := rfl

/-- **Where the dumps of a run are filed.** With a directory for dumps and accepted options, a run
writes the dumps of all programs under all policies, program by program, and then the metrics; what
a run that fails has written is a beginning of this, and a run on a host that obliges does not fail.
The paths of the dumps are different exactly if the programs have different titles and no policy is
named twice, be it by different spellings. -/
theorem dumps_filed {σ : Type} {h : Host (StateM σ)} {s : Settings} (hdump : s.dump ≠ "")
    (hprograms : s.programs ≠ []) {st : σ} {os : List Options} {st₁ : σ × List String}
    (haccepted : Logged.runFrom (analysisOptions h.logged s) (st, []) = (.ok os, st₁)) :
    ∃ policies, List.Forall₂ Names os policies ∧
      let plan := dumpPaths s.dump s.programs policies
      let out := Logged.runFrom (analyzePrograms h.logged s) (st, [])
      out.2.2 <+: plan ++ s.metricsPaths ∧
      ((∃ found, out.1 = .ok found) → out.2.2 = plan ++ s.metricsPaths) ∧
      (h.Obliges → ∃ found, out.1 = .ok found) ∧
      (plan.Nodup ↔ (s.programs.map Path.title).Nodup ∧ policies.Nodup) := by
  obtain ⟨policies, hpolicies, hne, hrun⟩ := analyzePrograms_eq haccepted
  obtain ⟨done, hlog, hprefix, hsure, hok⟩ := writes_analyzeUnder h hdump hpolicies (st₁.1, [])
  rw [← hrun, nil_append] at hlog
  rw [← hrun] at hsure hok
  refine ⟨policies, hpolicies, ?_, ?_, hsure, nodup_dumpPaths_iff hprograms hne⟩
  · rw [hlog]
    exact hprefix
  · rintro ⟨found, hfound⟩
    rw [hlog, (hok found hfound).1]

/-- The dumps of two programs under two policies are kept apart. -/
theorem dumps_filed_apart :
    let s : Settings :=
      { programs := ["a/p.yaml", "b/q.yaml"], dump := "out", cs := some ["ci", "2-obj"] }
    let os : List Options := [{ cs := "ci" }, { cs := "2-obj" }]
    let out := Logged.runFrom (analyzePrograms Host.blank.logged s) ((), [])
    s.dump ≠ "" ∧ s.programs ≠ [] ∧
    Logged.runFrom (analysisOptions Host.blank.logged s) ((), []) = (.ok os, (), []) ∧
    Host.blank.Obliges ∧ (∃ found, out.1 = .ok found) ∧
    out.2.2 = ["out/p.ci.txt", "out/p.2-obj.txt", "out/q.ci.txt", "out/q.2-obj.txt"] ∧
    out.2.2.Nodup := by
  intro s os out
  have haccepted : Logged.runFrom (analysisOptions Host.blank.logged s) ((), []) =
    (.ok os, (), []) := rfl
  obtain ⟨policies, hos, -, hlog, hsure, hnodup⟩ := dumps_filed (by decide) (by decide) haccepted
  have hci : Policy.parse "ci" = .ok .insensitive := by decide +kernel
  have hobj : Policy.parse "2-obj" = .ok (.obj 2) := by decide +kernel
  obtain rfl : policies = [.insensitive, .obj 2] :=
    policies_unique hos (.cons hci (.cons hobj .nil))
  have hfound := hsure Host.obliges_blank
  have hpaths := hlog hfound
  refine ⟨by decide, by decide, haccepted, Host.obliges_blank, hfound, ?_, ?_⟩
  · exact hpaths.trans (by decide +kernel)
  · exact hpaths ▸ (append_nil _).symm ▸ hnodup.mpr (by decide +kernel)

/-- **Dumps are overwritten**: two programs with different paths and two names of policies that are
both accepted, and all four dumps have the same path. -/
theorem dumps_overwritten :
    let s : Settings :=
      { programs := ["a/p.yaml", "b/p.yaml"], dump := "out", cs := some ["1-call", "1-cfa"] }
    let os : List Options := [{ cs := "1-call" }, { cs := "1-cfa" }]
    s.programs.Nodup ∧ (os.map (·.cs)).Nodup ∧
    Logged.runFrom (analysisOptions Host.blank.logged s) ((), []) = (.ok os, (), []) ∧
    (∃ found, (Logged.runFrom (analyzePrograms Host.blank.logged s) ((), [])).1 = .ok found) ∧
    (Logged.runFrom (analyzePrograms Host.blank.logged s) ((), [])).2.2 =
      List.replicate 4 "out/p.1-call.txt" := by
  intro s os
  have haccepted : Logged.runFrom (analysisOptions Host.blank.logged s) ((), []) =
    (.ok os, (), []) := rfl
  obtain ⟨-, -, -, hrun⟩ := analyzePrograms_eq haccepted
  have hcall : Policy.parse "1-call" = .ok (.call 1) := by decide +kernel
  have hcfa : Policy.parse "1-cfa" = .ok (.call 1) := by decide +kernel
  have hos : List.Forall₂ Names os [.call 1, .call 1] := .cons hcall (.cons hcfa .nil)
  obtain ⟨done, hlog, -, hsure, hok⟩ :=
    writes_analyzeUnder Host.blank (s := s) (by decide) hos ((), [])
  rw [← hrun] at hlog hsure hok
  obtain ⟨found, hfound⟩ := hsure Host.obliges_blank
  refine ⟨by decide, by decide, haccepted, ⟨found, hfound⟩, ?_⟩
  rw [hlog, (hok found hfound).1]
  decide +kernel

end CommandLine

end HeapFlow
