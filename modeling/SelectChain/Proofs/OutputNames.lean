import SelectChain.FileLowering
import Mathlib.Data.List.DropRight
import Mathlib.Tactic

/-!
# Output names

The output of a file goes beside it, under the stem of its name with a suffix.
What that means is said here of the components of a path, which are independent
of how often slashes are repeated or single dots put in between: an output has
the components of its input but for the last, which is a name made of the stem.
The text of the directory is kept as well, so that outputs are told apart by
their stems alone.  The main step is `locate?_replaced`: a path is taken apart
the same way before and after its name is replaced.
-/

namespace SelectChain

namespace Path

/-! ## Segments -/

theorem not_mem_of_mem_segments
    {path : List Char} {segment : Segment} (h : segment ∈ segments path) :
    '/' ∉ segment := by
  induction path generalizing segment with
  | nil =>
      obtain rfl := List.mem_singleton.mp h
      simp
  | cons c rest ih =>
      rw [segments] at h
      split at h
      next =>
        rcases List.mem_cons.mp h with rfl | h
        · simp
        · exact ih h
      next hc =>
        cases hsegments : segments rest with
        | nil => exact absurd hsegments (segments_ne_nil rest)
        | cons first more =>
            rw [hsegments] at h ih
            rcases List.mem_cons.mp h with rfl | h
            · have hfirst := ih (List.mem_cons_self ..)
              simp [hfirst, Ne.symm hc]
            · exact ih (List.mem_cons_of_mem _ h)

theorem segments_eq_singleton {segment : Segment} (h : '/' ∉ segment) :
    segments segment = [segment] := by
  induction segment with
  | nil => rfl
  | cons c rest ih =>
      simp only [List.mem_cons, not_or] at h
      rw [segments, if_neg (Ne.symm h.1), ih h.2]

theorem segments_append_slash
    {segment : Segment} (h : '/' ∉ segment) (rest : List Char) :
    segments (segment ++ '/' :: rest) = segment :: segments rest := by
  induction segment with
  | nil => rw [List.nil_append, segments, if_pos rfl]
  | cons c segment ih =>
      simp only [List.mem_cons, not_or] at h
      rw [List.cons_append, segments, if_neg (Ne.symm h.1), ih h.2]

/-- Nothing of the segments is lost in a path, if there are any. -/
theorem segments_join
    {parts : List Segment} (hparts : parts ≠ [])
    (h : ∀ segment ∈ parts, '/' ∉ segment) : segments (join parts) = parts := by
  induction parts with
  | nil => exact absurd rfl hparts
  | cons first more ih =>
      have hfirst := h first (List.mem_cons_self ..)
      cases more with
      | nil => exact segments_eq_singleton hfirst
      | cons second more =>
          rw [join_cons _ (by simp), segments_append_slash hfirst,
            ih (by simp) fun segment hmem =>
              h segment (List.mem_cons_of_mem _ hmem)]

theorem join_append_singleton
    {parts : List Segment} (h : parts ≠ []) (name : Segment) :
    join (parts ++ [name]) = join parts ++ '/' :: name := by
  induction parts with
  | nil => exact absurd rfl h
  | cons first more ih =>
      cases more with
      | nil => rfl
      | cons second more =>
          have hwhole : join (first :: second :: more) =
              first ++ '/' :: join (second :: more) := rfl
          rw [List.cons_append, join_cons _ (by simp), ih (by simp), hwhole,
            List.append_assoc, List.cons_append]

/-! ## Components -/

inductive Component where
  | root
  /-- A single dot in front of all others. -/
  | current
  | parent
  | normal (name : Segment)
  deriving DecidableEq

/-- A segment that stands for its own directory is no component. -/
def Component.ofSegment? (segment : Segment) : Option Component :=
  if isVoid segment then none
  else if segment = parentSegment then some .parent
  else some (.normal segment)

/-- The component in front of those of the segments: an empty segment with
another behind it is the root. -/
def leading : List Segment → List Component
  | [] :: _ :: _ => [.root]
  | ['.'] :: _ => [.current]
  | _ => []

def components (path : List Char) : List Component :=
  leading (segments path) ++ (segments path).filterMap Component.ofSegment?

example : components "/a//./b/..".toList =
    [.root, .normal ['a'], .normal ['b'], .parent] := by
  decide

/-! ## Taking a path apart -/

theorem exists_segments_cons {c : Char} (hc : c ≠ '/') (rest : List Char) :
    ∃ first more, segments rest = first :: more ∧
      segments (c :: rest) = (c :: first) :: more := by
  cases hsegments : segments rest with
  | nil => exact absurd hsegments (segments_ne_nil rest)
  | cons first more =>
      refine ⟨first, more, rfl, ?_⟩
      rw [segments, if_neg hc, hsegments]

/-- The ways in which a path can start. -/
theorem start_cases (path : List Char) :
    path = [] ∨ path = ['.'] ∨ (∃ rest, path = '/' :: rest) ∨
      (∃ rest, path = '.' :: '/' :: rest) ∨
      (anchor path = [] ∧ ∃ first more, segments path = first :: more ∧
        isVoid first = false) := by
  cases path with
  | nil => simp
  | cons c rest =>
      by_cases hslash : c = '/'
      · subst hslash
        simp
      · obtain ⟨first, more, hrest, hsegments⟩ :=
          exists_segments_cons hslash rest
        by_cases hdot : c = '.'
        · subst hdot
          cases rest with
          | nil => simp
          | cons d rest =>
              by_cases hslash' : d = '/'
              · subst hslash'
                simp
              · obtain ⟨first', more', -, hsegments'⟩ :=
                  exists_segments_cons hslash' rest
                rw [hsegments', List.cons.injEq] at hrest
                right; right; right; right
                refine ⟨by simp [anchor, hslash'], _, _, hsegments, ?_⟩
                simp [isVoid, ← hrest.1]
        · right; right; right; right
          refine ⟨by simp [anchor, hslash, hdot], _, _, hsegments, ?_⟩
          simp [isVoid, hdot]

/-- The segments up to the last that counts. -/
def trimmed (parts : List Segment) : List Segment :=
  parts.rdropWhile isVoid

theorem dropWhile_reverse (parts : List Segment) :
    parts.reverse.dropWhile isVoid = (trimmed parts).reverse := by
  simp [trimmed, List.rdropWhile]

theorem trimmed_cons (first : Segment) (more : List Segment) :
    trimmed (first :: more) =
      if trimmed more = [] then
        if isVoid first then [] else [first]
      else first :: trimmed more := by
  induction more using List.reverseRecOn with
  | nil => simp [trimmed, List.rdropWhile_singleton]
  | append_singleton more last ih =>
      unfold trimmed at ih ⊢
      rw [← List.cons_append, List.rdropWhile_concat, List.rdropWhile_concat]
      split
      next => exact ih
      next => simp

theorem trimmed_eq_nil_of_cons
    {first : Segment} {more : List Segment}
    (h : trimmed (first :: more) = []) : trimmed more = [] := by
  by_contra hmore
  rw [trimmed_cons, if_neg hmore] at h
  cases h

theorem exists_of_trimmed_void_cons
    {first : Segment} (hfirst : isVoid first = true) {more before : List Segment}
    {name : Segment} (h : trimmed (first :: more) = before ++ [name]) :
    ∃ others, before = first :: others ∧ trimmed more = others ++ [name] := by
  rw [trimmed_cons, hfirst] at h
  by_cases hmore : trimmed more = []
  · simp [hmore] at h
  · rw [if_neg hmore] at h
    cases before with
    | nil =>
        rw [List.nil_append, List.cons.injEq] at h
        exact absurd h.2 hmore
    | cons head others =>
        rw [List.cons_append, List.cons.injEq] at h
        exact ⟨others, by rw [h.1], h.2⟩

theorem isVoid_of_trimmed
    {parts before : List Segment} {name : Segment}
    (h : trimmed parts = before ++ [name]) : isVoid name = false := by
  have hne : trimmed parts ≠ [] := by simp [h]
  have hlast : ¬ isVoid ((trimmed parts).getLast hne) = true :=
    List.rdropWhile_last_not isVoid parts hne
  rw [List.getLast_congr hne (by simp) h, List.getLast_append_singleton] at hlast
  simpa using hlast

theorem exists_voids
    {parts before : List Segment} {name : Segment}
    (h : trimmed parts = before ++ [name]) :
    ∃ voids, parts = before ++ name :: voids ∧
      ∀ segment ∈ voids, isVoid segment = true := by
  have hwhole : trimmed parts ++ parts.rtakeWhile isVoid = parts :=
    List.rdropWhile_append_rtakeWhile
  rw [h, List.append_assoc, List.singleton_append] at hwhole
  exact ⟨_, hwhole.symm, fun segment => List.mem_rtakeWhile_imp⟩

/-- What stays of the segments in front of a name: they end with one that
counts, unless the first of them is all that is left. -/
def directoryParts (before : List Segment) : List Segment :=
  if trimmed before = [] then before.take 1 else trimmed before

/-- The text of a directory; the root needs its slash. -/
def directoryText : List Segment → List Char
  | [[]] => ['/']
  | parts => join parts

theorem directoryText_of_void
    {first : Segment} (hfirst : isVoid first = true) (more : List Segment) :
    directoryText (directoryParts (first :: more)) =
      if trimmed more = [] then directoryText [first]
      else first ++ '/' :: join (trimmed more) := by
  unfold directoryParts
  rw [trimmed_cons, hfirst]
  by_cases hmore : trimmed more = []
  · simp [hmore]
  · have hwhole : directoryText (first :: trimmed more) =
        join (first :: trimmed more) := by
      unfold directoryText
      split
      next heq => simp_all
      next => rfl
    simp [hmore, hwhole, join_cons first hmore]

theorem directoryText_of_solid
    {first : Segment} (hfirst : isVoid first = false) (more : List Segment) :
    directoryText (directoryParts (first :: more)) =
      join (trimmed (first :: more)) := by
  have hhead : ∃ rest, trimmed (first :: more) = first :: rest := by
    rw [trimmed_cons, hfirst]
    split
    next => exact ⟨[], rfl⟩
    next => exact ⟨_, rfl⟩
  obtain ⟨rest, hrest⟩ := hhead
  rw [directoryParts, if_neg (by simp [hrest]), hrest]
  unfold directoryText
  split
  next heq =>
    cases heq
    cases hfirst
  next => rfl

/-- A path is taken apart at the last segment that counts, unless that is a
double dot. -/
theorem locate?_eq (path : List Char) :
    (trimmed (segments path) = [] → locate? path = none) ∧
      ∀ before name, trimmed (segments path) = before ++ [name] →
        locate? path =
          if name = parentSegment then none
          else some ⟨directoryText (directoryParts before), name⟩ := by
  have hlocate : ∀ body,
      segments (path.drop (anchor path).length) = body →
      (trimmed body = [] → locate? path = none) ∧
        ∀ earlier name, trimmed body = earlier ++ [name] →
          locate? path =
            if name = parentSegment then none
            else some ⟨anchor path ++ join (trimmed earlier), name⟩ := by
    rintro body rfl
    unfold locate?
    simp only [dropWhile_reverse]
    constructor
    · intro hnil
      rw [hnil]
      rfl
    · intro earlier name hsome
      rw [hsome, List.reverse_append, List.reverse_singleton,
        List.singleton_append]
      simp only [dropWhile_reverse, List.reverse_reverse]
  rcases start_cases path with
    rfl | rfl | ⟨rest, rfl⟩ | ⟨rest, rfl⟩ | ⟨hanchor, first, more, hfirst, hsolid⟩
  · have hnil : trimmed (segments []) = [] := rfl
    exact ⟨fun _ => rfl, fun before name h => by simp [hnil] at h⟩
  · have hnil : trimmed (segments ['.']) = [] := rfl
    exact ⟨fun _ => rfl, fun before name h => by simp [hnil] at h⟩
  · obtain ⟨hnone, hsome⟩ := hlocate (segments rest) rfl
    rw [segments, if_pos rfl]
    refine ⟨fun h => hnone (trimmed_eq_nil_of_cons h), ?_⟩
    intro before name h
    obtain ⟨others, rfl, hothers⟩ := exists_of_trimmed_void_cons rfl h
    rw [hsome others name hothers, directoryText_of_void rfl]
    by_cases hall : trimmed others = []
    · rw [if_pos hall, hall]
      rfl
    · rw [if_neg hall]
      rfl
  · have hdot : segments ('.' :: '/' :: rest) = ['.'] :: segments rest :=
      segments_append_slash (show '/' ∉ ['.'] by simp) rest
    have hslash : segments ('/' :: rest) = [] :: segments rest := by
      rw [segments, if_pos rfl]
    obtain ⟨hnone, hsome⟩ := hlocate ([] :: segments rest) hslash
    rw [hdot]
    constructor
    · intro h
      apply hnone
      rw [trimmed_cons, trimmed_eq_nil_of_cons h]
      rfl
    · intro before name h
      obtain ⟨others, rfl, hothers⟩ := exists_of_trimmed_void_cons rfl h
      have hbody : trimmed ([] :: segments rest) = [] :: others ++ [name] := by
        rw [trimmed_cons, hothers, if_neg (by simp), List.cons_append]
      rw [hsome _ _ hbody, directoryText_of_void rfl, trimmed_cons]
      by_cases hall : trimmed others = []
      · rw [if_pos hall, if_pos hall]
        rfl
      · rw [if_neg hall, if_neg hall, join_cons _ hall]
        rfl
  · obtain ⟨hnone, hsome⟩ := hlocate (segments path) (by rw [hanchor]; rfl)
    refine ⟨hnone, ?_⟩
    intro before name h
    rw [hsome before name h, hanchor, List.nil_append]
    cases before with
    | nil => rfl
    | cons head others =>
        have hhead : head = first := by
          rw [hfirst, trimmed_cons, hsolid, List.cons_append] at h
          split at h
          next => exact (List.cons.inj h).1.symm
          next => exact (List.cons.inj h).1.symm
        rw [hhead, directoryText_of_solid hsolid]

/-! ## Directories -/

theorem trimmed_take
    {parts : List Segment} (h : trimmed parts = []) {length : Nat} :
    trimmed (parts.take length) = [] := by
  have hall : ∀ segment ∈ parts, isVoid segment = true := by
    simpa [trimmed] using h
  simpa [trimmed] using fun segment hmem =>
    hall segment (List.mem_of_mem_take hmem)

section Directories

variable (before : List Segment)

theorem directoryParts_directoryParts :
    directoryParts (directoryParts before) = directoryParts before := by
  by_cases hbefore : trimmed before = []
  · simp [directoryParts, hbefore, trimmed_take hbefore]
  · have htrimmed : trimmed (trimmed before) = trimmed before :=
      List.rdropWhile_idempotent _ _
    simp [directoryParts, hbefore, htrimmed]

theorem directoryParts_isPrefix : directoryParts before <+: before := by
  unfold directoryParts
  split
  next => exact List.take_prefix 1 before
  next => exact List.rdropWhile_prefix _ _

theorem head?_directoryParts :
    (directoryParts before).head? = before.head? := by
  cases before with
  | nil => rfl
  | cons first more =>
      unfold directoryParts
      rw [trimmed_cons]
      cases hfirst : isVoid first <;> split <;> simp_all

theorem filterMap_trimmed :
    (trimmed before).filterMap Component.ofSegment? =
      before.filterMap Component.ofSegment? := by
  have hvoids : (before.rtakeWhile isVoid).filterMap Component.ofSegment? =
      [] := by
    rw [List.filterMap_eq_nil_iff]
    intro segment hmem
    simp [Component.ofSegment?, List.mem_rtakeWhile_imp hmem]
  have hsplit : trimmed before ++ before.rtakeWhile isVoid = before :=
    List.rdropWhile_append_rtakeWhile
  conv_rhs => rw [← hsplit, List.filterMap_append, hvoids, List.append_nil]

theorem filterMap_directoryParts :
    (directoryParts before).filterMap Component.ofSegment? =
      before.filterMap Component.ofSegment? := by
  by_cases hbefore : trimmed before = []
  · rw [directoryParts, if_pos hbefore, ← filterMap_trimmed before, hbefore,
      ← filterMap_trimmed, trimmed_take hbefore]
  · rw [directoryParts, if_neg hbefore, filterMap_trimmed]

/-- A directory is the root, or its last segment has characters. -/
theorem directoryParts_cases :
    directoryParts before = [] ∨ directoryParts before = [[]] ∨
      (directoryText (directoryParts before) = join (directoryParts before) ∧
        ∃ others last, directoryParts before = others ++ [last] ∧
          last ≠ []) := by
  rcases List.eq_nil_or_concat' (directoryParts before) with
    hnil | ⟨others, last, hlast⟩
  · exact Or.inl hnil
  · right
    by_cases hroot : directoryParts before = [[]]
    · exact Or.inl hroot
    · right
      have htext : directoryText (directoryParts before) =
          join (directoryParts before) := by
        unfold directoryText
        split
        next heq => exact absurd heq hroot
        next => rfl
      refine ⟨htext, others, last, hlast, ?_⟩
      rintro rfl
      -- An empty last segment would have been dropped, unless it is the first.
      have hfixed := directoryParts_directoryParts before
      have hvoid : trimmed (others ++ [[]]) = trimmed others :=
        List.rdropWhile_concat_pos _ _ _ rfl
      rw [hlast, directoryParts, hvoid] at hfixed
      split at hfixed
      next =>
        have hlength := congrArg List.length hfixed
        rw [List.length_take, List.length_append, List.length_singleton]
          at hlength
        have hothers : others = [] := List.length_eq_zero_iff.mp (by omega)
        rw [hothers] at hlast
        exact hroot hlast
      next =>
        have hle := (List.rdropWhile_prefix isVoid others).length_le
        have hlength := congrArg List.length hfixed
        simp [trimmed] at hlength
        omega

theorem slash_not_mem_directoryParts
    (h : ∀ segment ∈ before, '/' ∉ segment) :
    ∀ segment ∈ directoryParts before, '/' ∉ segment :=
  fun segment hmem => h segment ((directoryParts_isPrefix before).subset hmem)

/-- A name goes behind the segments of its directory. -/
theorem location_path_eq
    (h : ∀ segment ∈ before, '/' ∉ segment) (name : Segment) :
    Location.path ⟨directoryText (directoryParts before), name⟩ =
      join (directoryParts before ++ [name]) := by
  rcases directoryParts_cases before with
    hnil | hroot | ⟨htext, others, last, hlast, hne⟩
  · rw [hnil]
    rfl
  · rw [hroot]
    rfl
  · have hparts : directoryParts before ≠ [] := by simp [hlast]
    have hend : (join (directoryParts before)).getLast? = last.getLast? := by
      rw [hlast]
      cases others with
      | nil => rfl
      | cons first more =>
          obtain ⟨c, hc⟩ := Option.ne_none_iff_exists'.mp
            (mt List.getLast?_eq_none_iff.mp hne)
          rw [join_append_singleton (by simp), List.getLast?_append,
            List.getLast?_cons, hc]
          rfl
    have hslash : last.getLast? ≠ some '/' := by
      intro hmem
      exact slash_not_mem_directoryParts before h last (by simp [hlast])
        (List.mem_of_getLast? hmem)
    have hjoin : join (directoryParts before) ≠ [] := by
      intro hempty
      rw [hempty] at hend
      exact hne (List.getLast?_eq_none_iff.mp hend.symm)
    rw [Location.path, htext, if_neg (by simp [hjoin, hend, hslash]),
      join_append_singleton hparts]

end Directories

/-- A path with a name is taken apart behind a directory. -/
theorem exists_of_locate?
    {path : List Char} {location : Location} (h : locate? path = some location) :
    ∃ before, trimmed (segments path) = before ++ [location.name] ∧
      location.name ≠ parentSegment ∧
      location.parent = directoryText (directoryParts before) := by
  obtain ⟨hnone, hsome⟩ := locate?_eq path
  rcases List.eq_nil_or_concat' (trimmed (segments path)) with
    hnil | ⟨before, name, hname⟩
  · rw [hnone hnil] at h
    cases h
  · rw [hsome before name hname] at h
    split at h
    next => cases h
    next hparent =>
      cases h
      exact ⟨before, hname, hparent, rfl⟩

theorem slash_not_mem_of_trimmed
    {path : List Char} {before : List Segment} {name : Segment}
    (h : trimmed (segments path) = before ++ [name]) :
    ∀ segment ∈ before, '/' ∉ segment := by
  intro segment hmem
  have hall : segment ∈ trimmed (segments path) := by simp [h, hmem]
  exact not_mem_of_mem_segments ((List.rdropWhile_prefix _ _).subset hall)

/-- The segments of a path with a new name. -/
theorem segments_replaced
    {before : List Segment} (h : ∀ segment ∈ before, '/' ∉ segment)
    {name : Segment} (hslash : '/' ∉ name) :
    segments (Location.path ⟨directoryText (directoryParts before), name⟩) =
      directoryParts before ++ [name] := by
  rw [location_path_eq before h]
  apply segments_join (by simp)
  intro segment hmem
  rcases List.mem_append.mp hmem with hmem | hmem
  · exact slash_not_mem_directoryParts before h segment hmem
  · rw [List.mem_singleton.mp hmem]
    exact hslash

/-- A path is taken apart the same way after its name is replaced by another. -/
theorem locate?_replaced
    {path : List Char} {location : Location} (h : locate? path = some location)
    {name : Segment} (hslash : '/' ∉ name) (hvoid : isVoid name = false)
    (hparent : name ≠ parentSegment) :
    locate? (Location.path { location with name := name }) =
      some { location with name := name } := by
  obtain ⟨before, htrimmed, -, htext⟩ := exists_of_locate? h
  rw [htext]
  have hsegments := segments_replaced (slash_not_mem_of_trimmed htrimmed) hslash
  have hlast : trimmed (directoryParts before ++ [name]) =
      directoryParts before ++ [name] :=
    List.rdropWhile_concat_neg _ _ _ (by simp [hvoid])
  rw [(locate?_eq _).2 (directoryParts before) name (by rw [hsegments, hlast]),
    if_neg hparent, directoryParts_directoryParts]

/-! ## Components of a path and its directory -/

/-- What the first segment of a directory contributes in front of all others. -/
def Component.first : Segment → List Component
  | [] => [.root]
  | ['.'] => [.current]
  | _ => []

/-- The components of the directory that has the given segments. -/
def directoryComponents (before : List Segment) : List Component :=
  before.head?.elim [] Component.first ++
    before.filterMap Component.ofSegment?

theorem leading_cons_cons
    (first second : Segment) (more : List Segment) :
    leading (first :: second :: more) = Component.first first := by
  unfold leading Component.first
  split <;> split <;> simp_all

theorem leading_append_cons
    (before : List Segment) {name : Segment} (h : isVoid name = false)
    (voids : List Segment) :
    leading (before ++ name :: voids) =
      before.head?.elim [] Component.first := by
  cases before with
  | nil =>
      unfold leading
      split <;> simp_all [isVoid]
  | cons first more =>
      cases more with
      | nil => exact leading_cons_cons first name voids
      | cons second more => exact leading_cons_cons first second _

theorem components_of_trimmed
    {path : List Char} {before : List Segment} {name : Segment}
    (h : trimmed (segments path) = before ++ [name]) :
    components path =
      directoryComponents before ++ (Component.ofSegment? name).toList := by
  obtain ⟨voids, hsplit, -⟩ := exists_voids h
  have hleading := leading_append_cons before (isVoid_of_trimmed h) voids
  rw [← hsplit] at hleading
  rw [components, hleading, ← filterMap_trimmed, h, List.filterMap_append,
    directoryComponents, List.append_assoc]
  cases hname : Component.ofSegment? name <;> simp [hname]

theorem components_of_void
    {path : List Char} (h : trimmed (segments path) = []) (name : Segment) :
    (components path).getLast? ≠ some (.normal name) := by
  rw [components, ← filterMap_trimmed, h, List.filterMap_nil, List.append_nil]
  unfold leading
  split <;> simp

theorem components_directoryText
    {before : List Segment} (h : ∀ segment ∈ before, '/' ∉ segment) :
    components (directoryText (directoryParts before)) =
      directoryComponents before := by
  have hsame : directoryComponents (directoryParts before) =
      directoryComponents before := by
    rw [directoryComponents, head?_directoryParts, filterMap_directoryParts,
      directoryComponents]
  rw [← hsame]
  rcases directoryParts_cases before with
    hnil | hroot | ⟨htext, others, last, hlast, hne⟩
  · rw [hnil]
    rfl
  · rw [hroot]
    rfl
  · rw [htext, components, segments_join (by simp [hlast])
      (slash_not_mem_directoryParts before h), directoryComponents]
    congr 1
    rw [hlast]
    cases others with
    | nil =>
        unfold leading
        split <;> simp_all [Component.first]
    | cons first more =>
        cases more with
        | nil => exact leading_cons_cons first last []
        | cons second more => exact leading_cons_cons first second _

/-- Only the empty path has no components. -/
theorem eq_nil_of_components
    {path : List Char} (h : components path = []) : path = [] := by
  rcases start_cases path with
    rfl | rfl | ⟨rest, rfl⟩ | ⟨rest, rfl⟩ | ⟨-, first, more, hfirst, hsolid⟩
  · rfl
  · cases h
  · obtain ⟨first, more, hrest⟩ :=
      List.exists_cons_of_ne_nil (segments_ne_nil rest)
    rw [components, segments, if_pos rfl, hrest] at h
    cases h
  · rw [components, show '.' :: '/' :: rest = ['.'] ++ '/' :: rest from rfl,
      segments_append_slash (by simp)] at h
    cases h
  · rw [components, hfirst, List.append_eq_nil_iff,
      List.filterMap_eq_nil_iff] at h
    have hnone := h.2 first (List.mem_cons_self ..)
    rw [Component.ofSegment?, hsolid, if_neg Bool.false_ne_true] at hnone
    split at hnone <;> cases hnone

/-- A path has a name exactly where its last component is one, and then its
other components are those of its directory. -/
theorem locate?_cases (path : List Char) :
    (locate? path = none ∧
        ∀ name, (components path).getLast? ≠ some (.normal name)) ∨
      ∃ location, locate? path = some location ∧ '/' ∉ location.name ∧
        components path =
          components location.parent ++ [.normal location.name] := by
  obtain ⟨hnone, hsome⟩ := locate?_eq path
  rcases List.eq_nil_or_concat' (trimmed (segments path)) with
    hnil | ⟨before, name, hname⟩
  · exact Or.inl ⟨hnone hnil, components_of_void hnil⟩
  · have hlocate := hsome before name hname
    have hcomponents := components_of_trimmed hname
    have hvoid := isVoid_of_trimmed hname
    by_cases hparent : name = parentSegment
    · left
      rw [if_pos hparent] at hlocate
      have hsegment : Component.ofSegment? name = some .parent := by
        simp [Component.ofSegment?, hvoid, ← hparent]
      refine ⟨hlocate, ?_⟩
      rw [hcomponents, hsegment]
      simp
    · right
      rw [if_neg hparent] at hlocate
      refine ⟨_, hlocate, ?_, ?_⟩
      · have hmem : name ∈ trimmed (segments path) := by simp [hname]
        exact not_mem_of_mem_segments
          ((List.rdropWhile_prefix _ _).subset hmem)
      · rw [hcomponents, components_directoryText
          (slash_not_mem_of_trimmed hname)]
        simp [Component.ofSegment?, hvoid, hparent]

/-! ## Stems and extensions -/

theorem splitAtLastDot?_eq_none {name : Segment}
    (h : splitAtLastDot? name = none) : '.' ∉ name := by
  induction name with
  | nil => simp
  | cons c rest ih =>
      rw [splitAtLastDot?] at h
      cases hrest : splitAtLastDot? rest with
      | some parts => simp [hrest] at h
      | none =>
          rw [hrest] at h
          by_cases hc : c = '.'
          · simp [hc] at h
          · simp [ih hrest, Ne.symm hc]

theorem splitAtLastDot?_eq_some
    {name before behind : List Char}
    (h : splitAtLastDot? name = some (before, behind)) :
    name = before ++ '.' :: behind ∧ '.' ∉ behind := by
  induction name generalizing before with
  | nil => cases h
  | cons c rest ih =>
      rw [splitAtLastDot?] at h
      cases hrest : splitAtLastDot? rest with
      | some parts =>
          obtain ⟨first, last⟩ := parts
          rw [hrest] at h
          cases h
          obtain ⟨hname, hdot⟩ := ih hrest
          exact ⟨by rw [hname]; rfl, hdot⟩
      | none =>
          rw [hrest] at h
          by_cases hc : c = '.'
          · simp only [hc, if_true, Option.some.injEq, Prod.mk.injEq] at h
            obtain ⟨rfl, rfl⟩ := h
            exact ⟨by rw [hc]; rfl, splitAtLastDot?_eq_none hrest⟩
          · simp [hc] at h

/-- A name has no extension, or its extension stands behind the dot that ends
its stem. -/
theorem stem_cases (name : Segment) :
    (extension? name = none ∧ stem name = name) ∨
      ∃ behind, extension? name = some behind ∧ '.' ∉ behind ∧
        name = stem name ++ '.' :: behind := by
  unfold extension? stem
  cases hsplit : splitAtLastDot? name with
  | none => simp
  | some parts =>
      obtain ⟨before, behind⟩ := parts
      cases before with
      | nil => simp
      | cons c before =>
          obtain ⟨hname, hdot⟩ := splitAtLastDot?_eq_some hsplit
          exact Or.inr ⟨behind, rfl, hdot, hname⟩

theorem stem_isPrefix (name : Segment) : stem name <+: name := by
  rcases stem_cases name with ⟨-, hstem⟩ | ⟨behind, -, -, hname⟩
  · rw [hstem]
  · exact ⟨'.' :: behind, hname.symm⟩

/-- An output has the name of its input only without a suffix, and only if the
extension is that of all outputs. -/
theorem outputName_eq_self_iff (suffix : List Char) (name : Segment) :
    outputName suffix name = name ↔
      suffix = [] ∧ extension? name = some "scala".toList := by
  have hscala : outputExtension.toList = '.' :: "scala".toList := rfl
  rw [outputName, List.append_assoc, hscala]
  rcases stem_cases name with
    ⟨hextension, hstem⟩ | ⟨behind, hextension, hdot, hname⟩
  · rw [hstem, hextension]
    simp
  · have hcancel : stem name ++ (suffix ++ '.' :: "scala".toList) = name ↔
        suffix ++ '.' :: "scala".toList = '.' :: behind := by
      conv_lhs => rhs; rw [hname]
      exact List.append_right_inj _
    rw [hcancel, hextension, Option.some.injEq]
    cases suffix with
    | nil => simp [eq_comm]
    | cons c suffix =>
        -- A dot further right would belong to the extension.
        simp only [List.cons_append, List.cons.injEq, reduceCtorEq, false_and,
          iff_false, not_and]
        rintro - rfl
        simp at hdot

theorem outputName_eq_iff (suffix : List Char) (name other : Segment) :
    outputName suffix name = outputName suffix other ↔
      stem name = stem other := by
  simp [outputName]

theorem slash_not_mem_outputName
    {suffix : List Char} {name : Segment}
    (hsuffix : '/' ∉ suffix) (hname : '/' ∉ name) :
    '/' ∉ outputName suffix name := by
  have hstem : '/' ∉ stem name := fun h => hname ((stem_isPrefix name).subset h)
  have hextension : '/' ∉ outputExtension.toList := by decide
  simp [outputName, hstem, hsuffix, hextension]

/-- The extension alone is longer than a double dot. -/
theorem outputName_ne
    (suffix : List Char) (name : Segment) {short : Segment}
    (h : short.length ≤ 2) : outputName suffix name ≠ short := by
  rintro rfl
  have hextension : outputExtension.toList.length = 6 := rfl
  simp only [outputName, List.length_append, hextension] at h
  omega

theorem isVoid_outputName (suffix : List Char) (name : Segment) :
    isVoid (outputName suffix name) = false := by
  have hempty : outputName suffix name ≠ [] := outputName_ne _ _ (by simp)
  have hdot : outputName suffix name ≠ ['.'] := outputName_ne _ _ (by simp)
  simp [isVoid, hempty, hdot]

/-! ## Outputs beside their inputs -/

/-- The text of the directory that a path with a name is in. -/
def parentText? (path : String) : Option (List Char) :=
  (locate? path.toList).map Location.parent

theorem locate?_of_final
    {path : List Char} {name : Segment}
    (h : (components path).getLast? = some (.normal name)) :
    ∃ parent, locate? path = some ⟨parent, name⟩ ∧ '/' ∉ name ∧
      components path = components parent ++ [.normal name] := by
  rcases locate?_cases path with ⟨-, hnone⟩ | ⟨⟨parent, name'⟩, hpath, hslash, hall⟩
  · exact absurd h (hnone name)
  · obtain rfl : name' = name := by simpa [hall] using h
    exact ⟨parent, hpath, hslash, hall⟩

theorem exists_outputPath
    (suffix : String) {path : String} {name : Segment}
    (h : (components path.toList).getLast? = some (.normal name)) :
    ∃ output, outputPath suffix path = .ok output := by
  obtain ⟨parent, hlocate, -⟩ := locate?_of_final h
  simp [outputPath, output?, outputChars?, hlocate]

/-- An output is in the directory of its input, and the rest of it is the new
name. -/
structure Beside (path output : String) (name : Segment) : Prop where
  parent : ∃ directory, parentText? path = some directory ∧
    parentText? output = some directory ∧
    components directory = (components path.toList).dropLast
  components : components output.toList =
    (components path.toList).dropLast ++ [.normal name]

theorem exists_output
    {suffix : String} (hsuffix : '/' ∉ suffix.toList) {path : String}
    {parent : List Char} {name : Segment}
    (hpath : locate? path.toList = some ⟨parent, name⟩) (hname : '/' ∉ name)
    (hall : components path.toList = components parent ++ [.normal name]) :
    ∃ output,
      outputPath suffix path = .ok output ∧
        output.toList = Location.path ⟨parent, outputName suffix.toList name⟩ ∧
        Beside path output (outputName suffix.toList name) := by
  have hlocate := locate?_replaced hpath
    (slash_not_mem_outputName hsuffix hname) (isVoid_outputName ..)
    (outputName_ne suffix.toList name (by simp [parentSegment]))
  refine ⟨String.ofList
    (Location.path ⟨parent, outputName suffix.toList name⟩), ?_, by simp, ?_, ?_⟩
  · simp [outputPath, output?, outputChars?, hpath]
  · refine ⟨parent, by simp [parentText?, hpath], ?_, by simp [hall]⟩
    simpa [parentText?] using congrArg (Option.map Location.parent) hlocate
  · rcases locate?_cases
        (Location.path ⟨parent, outputName suffix.toList name⟩) with
      ⟨hnone, -⟩ | ⟨location, hlocation, -, hcomponents⟩
    · rw [hnone] at hlocate
      cases hlocate
    · rw [hlocation, Option.some.injEq] at hlocate
      subst hlocate
      simpa [hall] using hcomponents

/-- A path has no output exactly where it does not end with a name.  Otherwise
the output is beside the file, under its stem; it is the file itself only without
a suffix and with the extension of all outputs, and the files of a directory
share their outputs exactly where they share their stems. -/
theorem outputs_beside_inputs
    {suffix : String} (hsuffix : '/' ∉ suffix.toList) (path : String) :
    (outputPath suffix path = .error (.unnamed path) ↔
        ∀ name, (components path.toList).getLast? ≠ some (.normal name)) ∧
      ∀ name, (components path.toList).getLast? = some (.normal name) →
        ∃ output, outputPath suffix path = .ok output ∧
          Beside path output (stem name ++ suffix.toList ++ ".scala".toList) ∧
          (stem name ++ suffix.toList ++ ".scala".toList = name ↔
            suffix = "" ∧ extension? name = some "scala".toList) ∧
          ∀ other otherName,
            (components other.toList).getLast? = some (.normal otherName) →
            parentText? other = parentText? path →
              ∃ otherOutput, outputPath suffix other = .ok otherOutput ∧
                (otherOutput = output ↔ stem otherName = stem name) ∧
                (components otherOutput.toList = components output.toList ↔
                  stem otherName = stem name) := by
  refine ⟨⟨?_, ?_⟩, ?_⟩
  · intro herror name hname
    obtain ⟨output, houtput⟩ := exists_outputPath suffix hname
    rw [houtput] at herror
    cases herror
  · intro hnone
    rcases locate?_cases path.toList with ⟨hpath, -⟩ | ⟨location, -, -, hall⟩
    · simp [outputPath, output?, outputChars?, hpath]
    · exact absurd (by simp [hall]) (hnone location.name)
  · intro name hname
    obtain ⟨parent, hpath, hslash, hall⟩ := locate?_of_final hname
    obtain ⟨output, houtput, htext, hbeside⟩ :=
      exists_output hsuffix hpath hslash hall
    refine ⟨output, houtput, hbeside, ?_, ?_⟩
    · have hempty : suffix.toList = [] ↔ suffix = "" := by simp
      rw [← hempty]
      exact outputName_eq_self_iff suffix.toList name
    · intro other otherName hother hparent
      obtain ⟨otherParent, hpath', hslash', hall'⟩ := locate?_of_final hother
      obtain ⟨otherOutput, houtput', htext', hbeside'⟩ :=
        exists_output hsuffix hpath' hslash' hall'
      obtain rfl : otherParent = parent := by
        simpa [parentText?, hpath, hpath'] using hparent
      have hcomponents : components otherOutput.toList =
          components output.toList ↔ stem otherName = stem name := by
        rw [hbeside.components, hbeside'.components, hall, hall']
        simpa using outputName_eq_iff suffix.toList otherName name
      refine ⟨otherOutput, houtput', ⟨?_, ?_⟩, hcomponents⟩
      · rintro rfl
        exact hcomponents.mp rfl
      · intro hstem
        rw [← String.toList_inj, htext, htext',
          (outputName_eq_iff suffix.toList otherName name).mpr hstem]

/-- Files beside each other with the stem `a.b`, spelled in two ways. -/
theorem outputs_beside_inputs_dotted :
    '/' ∉ standardSuffix.toList ∧
      (components "dir//./a.b.scala".toList).getLast? =
        some (.normal "a.b.scala".toList) ∧
      parentText? "dir/a.b.txt/." = parentText? "dir//./a.b.scala" ∧
      ∃ output, outputPath standardSuffix "dir//./a.b.scala" = .ok output ∧
        Beside "dir//./a.b.scala" output
          "a.b_output_in_dataframe.scala".toList ∧
        outputPath standardSuffix "dir/a.b.txt/." = .ok output := by
  have hsuffix : '/' ∉ standardSuffix.toList := by decide
  have hname : (components "dir//./a.b.scala".toList).getLast? =
      some (.normal "a.b.scala".toList) := by decide
  have hother : (components "dir/a.b.txt/.".toList).getLast? =
      some (.normal "a.b.txt".toList) := by decide
  have hparent : parentText? "dir/a.b.txt/." =
      parentText? "dir//./a.b.scala" := by decide
  obtain ⟨output, houtput, hbeside, -, hshared⟩ :=
    (outputs_beside_inputs hsuffix "dir//./a.b.scala").2 _ hname
  obtain ⟨otherOutput, hother', hsame, -⟩ := hshared _ _ hother hparent
  obtain rfl := hsame.mpr (by decide)
  exact ⟨hsuffix, hname, hparent, otherOutput, houtput, hbeside, hother'⟩

end Path

end SelectChain
