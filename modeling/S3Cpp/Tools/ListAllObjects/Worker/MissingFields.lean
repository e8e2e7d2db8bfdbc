import S3Cpp.Aws.S3.Types.Theorems
import S3Cpp.Tools.ListAllObjects.Worker

namespace S3Cpp.Tools.ListAllObjects

open Aws.S3 Library.Xml

-- A field is unset when its child is absent and only then, and of a size text the
-- whole counts.
structure DecodedExactly (xml : Node) : Prop where
  missing : ¬ Object.ChecksumMalformed xml → xml.child (ascii "Size") = none → ¬ Throws (Object.parse xml)
  accepted : ∀ child, xml.child (ascii "Size") = some child → ¬ Object.ChecksumMalformed xml →
    (¬ Throws (Object.parse xml) ↔ Numeral child.value)
  stored : ∀ object child, Object.parse xml = .ok object → xml.child (ascii "Size") = some child →
    object.Size = some (numeral child.value)
  size : ∀ object, Object.parse xml = .ok object → (object.Size = none ↔ xml.child (ascii "Size") = none)
  eTag : ∀ object, Object.parse xml = .ok object → (object.ETag = none ↔ xml.child (ascii "ETag") = none)
  key : ∀ object, Object.parse xml = .ok object → (object.Key = none ↔ xml.child (ascii "Key") = none)
  branch : ∀ config object, config.outputFormat = .PLAIN → Object.parse xml = .ok object →
    (objectsLines config [object] = [errorNoKey object] ↔ xml.child (ascii "Key") = none)

-- Either a child that is there is refused, or all of them are there and the size
-- is nothing but digits.
def FullyPresent (xml : Node) : Prop :=
  Object.ChecksumMalformed xml ∨
    (∃ child, xml.child (ascii "Size") = some child ∧ UnreadableSize child.value) ∨
    ((xml.child (ascii "ETag")).isSome ∧ (xml.child (ascii "Key")).isSome ∧
      ∃ child, xml.child (ascii "Size") = some child ∧ Numeral child.value)

section Fields

variable {xml : Node}

theorem FullyPresent.throws_iff (h : FullyPresent xml) :
    Throws (Object.parse xml) ↔ Object.ChecksumMalformed xml ∨
      ∃ child, xml.child (ascii "Size") = some child ∧ UnreadableSize child.value := by
  rw [Object.parse_throws_iff, Object.malformed_iff]
  constructor
  · rintro (hc | hu)
    · exact .inl hc
    · rcases h with hc | hsize | ⟨-, -, child, hchild, hnumeral⟩
      · exact .inl hc
      · exact .inr hsize
      · rw [Node.childValue_of_child hchild] at hu
        exact absurd hu hnumeral.readable
  · rintro (hc | ⟨child, hchild, hu⟩)
    · exact .inl hc
    · rw [Node.childValue_of_child hchild]
      exact .inr hu

-- A size text that is there and is refused is refused rightly.
theorem decodedExactly_of_throws (h : FullyPresent xml) (hthrows : Throws (Object.parse xml)) :
    DecodedExactly xml := by
  have hrefused := h.throws_iff.mp hthrows
  have hnone {object : Object} {P : Prop} (hok : Object.parse xml = .ok object) : P := by
    rw [hok] at hthrows
    exact absurd hthrows (throws_ok object)
  refine ⟨fun hc hsize => ?_, fun child hchild hc => ?_, fun _ _ h => hnone h, fun _ h => hnone h,
    fun _ h => hnone h, fun _ h => hnone h, fun _ _ _ h => hnone h⟩
  · obtain ⟨child, hchild, -⟩ := hrefused.resolve_left hc
    rw [hsize] at hchild
    cases hchild
  · obtain ⟨other, hother, hunreadable⟩ := hrefused.resolve_left hc
    obtain rfl : child = other := Option.some.inj (hchild.symm.trans hother)
    exact iff_of_false (not_not_intro hthrows) fun h => h.readable hunreadable

theorem objectsLines_plain {config : Config} (hformat : config.outputFormat = .PLAIN) (object : Object) :
    objectsLines config [object] = [errorNoKey object] ↔ object.Key = none := by
  cases hkey : object.Key <;> simp [objectsLines, hformat, hkey]

-- What the fields of an object are whose children are all there.
theorem parse_fields {object : Object} {child : Node} (hok : Object.parse xml = .ok object)
    (hchild : xml.child (ascii "Size") = some child) (hnumeral : Numeral child.value) :
    object.ETag = some (xml.childValue (ascii "ETag")) ∧ object.Key = some (xml.childValue (ascii "Key")) ∧
      object.Size = some (numeral child.value) := by
  obtain ⟨_, _, size, -, -, hsize, rfl⟩ := Object.parse_eq_ok_iff.mp hok
  rw [Node.childValue_of_child hchild, hnumeral.fromChars_eq] at hsize
  exact ⟨rfl, rfl, hsize.symm⟩

theorem decodedExactly_of_ok {object : Object} (h : FullyPresent xml)
    (hok : Object.parse xml = .ok object) : DecodedExactly xml := by
  have hthrows : ¬ Throws (Object.parse xml) := by
    rw [hok]
    exact throws_ok object
  obtain ⟨heTag, hkey, child, hchild, hnumeral⟩ := by
    have hrefused := mt h.throws_iff.mpr hthrows
    exact (h.resolve_left fun hc => hrefused (.inl hc)).resolve_left fun hsize => hrefused (.inr hsize)
  have hfields {other : Object} (hother : Object.parse xml = .ok other) :
      other.ETag ≠ none ∧ other.Key ≠ none ∧ other.Size = some (numeral child.value) := by
    obtain ⟨hotherETag, hotherKey, hotherSize⟩ := parse_fields hother hchild hnumeral
    exact ⟨by simp [hotherETag], by simp [hotherKey], hotherSize⟩
  have heTag : xml.child (ascii "ETag") ≠ none := Option.isSome_iff_ne_none.mp heTag
  have hkey : xml.child (ascii "Key") ≠ none := Option.isSome_iff_ne_none.mp hkey
  refine ⟨fun _ _ => hthrows, ?_, ?_, ?_, ?_, ?_, ?_⟩
  · intro other hother _
    obtain rfl : child = other := Option.some.inj (hchild.symm.trans hother)
    exact iff_of_true hthrows hnumeral
  · intro other otherChild hother hotherChild
    obtain rfl : child = otherChild := Option.some.inj (hchild.symm.trans hotherChild)
    exact (hfields hother).2.2
  · intro other hother
    simp [(hfields hother).2.2, hchild]
  · intro other hother
    exact iff_of_false (hfields hother).1 heTag
  · intro other hother
    exact iff_of_false (hfields hother).2.1 hkey
  · intro config other hformat hother
    rw [objectsLines_plain hformat]
    exact iff_of_false (hfields hother).2.1 hkey

-- Without an exception the two texts are set whether their children are there or not.
theorem DecodedExactly.fullyPresent_of_ok {object : Object} (h : DecodedExactly xml)
    (hok : Object.parse xml = .ok object) : FullyPresent xml := by
  obtain ⟨_, _, size, -, -, hsize, hobject⟩ := Object.parse_eq_ok_iff.mp hok
  have heTag : object.ETag ≠ none := by simp [hobject]
  have hkey : object.Key ≠ none := by simp [hobject]
  have hset : object.Size ≠ none := by simp [hobject]
  obtain ⟨child, hchild⟩ := Option.ne_none_iff_exists'.mp (mt (h.size object hok).mpr hset)
  by_cases hc : Object.ChecksumMalformed xml
  · exact .inl hc
  · have hthrows : ¬ Throws (Object.parse xml) := by
      rw [hok]
      exact throws_ok object
    refine .inr (.inr ⟨?_, ?_, child, hchild, (h.accepted child hchild hc).mp hthrows⟩)
    · exact Option.isSome_iff_ne_none.mpr (mt (h.eTag object hok).mpr heTag)
    · exact Option.isSome_iff_ne_none.mpr (mt (h.key object hok).mpr hkey)

theorem DecodedExactly.fullyPresent_of_throws (h : DecodedExactly xml)
    (hthrows : Throws (Object.parse xml)) : FullyPresent xml := by
  by_cases hc : Object.ChecksumMalformed xml
  · exact .inl hc
  · have hu := ((Object.malformed_iff xml).mp ((Object.parse_throws_iff xml).mp hthrows)).resolve_left hc
    obtain ⟨child, hchild⟩ := Option.ne_none_iff_exists'.mp fun hnone => h.missing hc hnone hthrows
    rw [Node.childValue_of_child hchild] at hu
    exact .inr (.inl ⟨child, hchild, hu⟩)

end Fields

-- The fields are decoded exactly as long as nothing is missing.
theorem decodedExactly_iff (xml : Node) : DecodedExactly xml ↔ FullyPresent xml := by
  rcases throws_or_ok (Object.parse xml) with hthrows | ⟨object, hok⟩
  · exact ⟨fun h => h.fullyPresent_of_throws hthrows, fun h => decodedExactly_of_throws h hthrows⟩
  · exact ⟨fun h => h.fullyPresent_of_ok hok, fun h => decodedExactly_of_ok h hok⟩

-- An object without a key is listed as one with an empty key.
def keylessObject : Node :=
  .element (ascii "Contents")
    [.element (ascii "ETag") [.pcdata (ascii "x")], .element (ascii "Size") [.pcdata (ascii "5")]]

theorem keyless_has_key :
    Object.parse keylessObject = .ok ⟨none, none, some (ascii "x"), some [], some 5⟩ ∧
      ¬ DecodedExactly keylessObject := by
  have hok : Object.parse keylessObject = .ok ⟨none, none, some (ascii "x"), some [], some 5⟩ := rfl
  refine ⟨hok, fun h => ?_⟩
  exact absurd ((h.key _ hok).mpr rfl) (by decide)

end S3Cpp.Tools.ListAllObjects
