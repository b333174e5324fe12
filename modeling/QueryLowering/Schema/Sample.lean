import QueryLowering.Schema.Declaration

/-!
# A sample schema

The schema of a school and its staff: tables of their own names and of others, keys of one column and
of two, and navigations of every cardinality. Examples are stated about it.
-/

namespace QueryLowering

namespace Sample

/-- A member that is stored in a column of its name. -/
def plain (member : String) : ColumnDeclaration := ⟨member, none, false⟩

/-- A member of the primary key. -/
def key (member : String) : ColumnDeclaration := ⟨member, none, true⟩

/-- A navigation by one pair of members. -/
def navigation (name target : String) (c : Cardinality) (parent child : String) : Navigation :=
  ⟨name, target, c, [(parent, child)]⟩

def student : EntityDeclaration :=
  { name := "Student", table := none, schema := none
    columns := [key "StudentId", ⟨"Name", some "FullName", false⟩, plain "Age", plain "CourseId",
      plain "IsActive", plain "EnrolledOn"]
    navigations := [navigation "NavCourse" "Course" .toOneRequired "CourseId" "CourseId"] }

def course : EntityDeclaration :=
  { name := "Course", table := none, schema := none
    columns := [key "CourseId", plain "Title"]
    navigations := [] }

def enrollment : EntityDeclaration :=
  { name := "Enrollment", table := none, schema := none
    columns := [key "StudentId", key "CourseId", plain "Grade"]
    navigations := [navigation "NavStudent" "Student" .toOneRequired "StudentId" "StudentId"] }

def employee : EntityDeclaration :=
  { name := "Employee", table := some "Employees", schema := none
    columns := [key "EmployeeId", plain "Name", plain "DepartmentId", plain "ManagerId"]
    navigations := [
      navigation "NavDepartment" "Department" .toOneOptional "DepartmentId" "DepartmentId",
      navigation "NavDegrees" "EmployeeDegree" .toMany "EmployeeId" "EmployeeId",
      navigation "NavManager" "Employee" .toOneOptional "ManagerId" "EmployeeId"] }

def employeeDegree : EntityDeclaration :=
  { name := "EmployeeDegree", table := none, schema := none
    columns := [key "RowId", plain "EmployeeId", plain "Degree", plain "University"]
    navigations := [navigation "NavEmployee" "Employee" .toOneRequired "EmployeeId" "EmployeeId"] }

def department : EntityDeclaration :=
  { name := "Department", table := none, schema := none
    columns := [key "DepartmentId", plain "Name", plain "LocationId"]
    navigations := [navigation "NavLocation" "Location" .toOneRequired "LocationId" "LocationId"] }

def location : EntityDeclaration :=
  { name := "Location", table := none, schema := none
    columns := [key "LocationId", plain "City", plain "CountryId"]
    navigations := [navigation "NavCountry" "Country" .toOneRequired "CountryId" "CountryId"] }

def country : EntityDeclaration :=
  { name := "Country", table := none, schema := none
    columns := [key "CountryId", plain "Name"]
    navigations := [] }

def asset : EntityDeclaration :=
  { name := "Asset", table := none, schema := none
    columns := [key "RowId", plain "ParentId", plain "Name"]
    navigations := [] }

/-- The schema of a school. -/
def school : Declaration :=
  { entities := [student, course, enrollment, employee, employeeDegree, department, location, country,
      asset] }

end Sample

end QueryLowering
