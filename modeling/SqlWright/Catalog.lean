import SqlWright.Relation.Basic
import SqlWright.Server.Dialect

/-!
# Catalogs

Every server keeps a catalog of its tables and their columns in tables of its own.
The queries of the catalog are relations like any other.
-/

namespace SqlWright

/-- Stored tables that list the tables (schema, name) and the columns (schema, table, name,
type, position, nullable) of a server. -/
structure Catalog where
  tables : Table
  columns : Table
  deriving DecidableEq

namespace Catalog

/-- Type of the names in a catalog. -/
def nameType : SqlType := .varChar (some 128)

/-- Table of a catalog, which has no key. -/
def listing (schema : Option String) (name : String) (columns : List (String × SqlType)) :
    Table where
  schema := schema
  name := name
  columns := columns.map fun (name, type) ↦ ⟨name, type, false⟩
  key := []

/-- Catalog of the standard's information schema. -/
def informationSchema : Catalog where
  tables := listing (some "information_schema") "tables"
    [("table_schema", nameType), ("table_name", nameType)]
  columns := listing (some "information_schema") "columns"
    [("table_schema", nameType), ("table_name", nameType), ("column_name", nameType),
     ("data_type", nameType), ("ordinal_position", .int32), ("is_nullable", .varChar (some 3))]

/-- Catalog of Oracle's data dictionary. -/
def dataDictionary : Catalog where
  tables := listing none "ALL_TABLES" [("OWNER", nameType), ("TABLE_NAME", nameType)]
  columns := listing none "ALL_TAB_COLUMNS"
    [("OWNER", nameType), ("TABLE_NAME", nameType), ("COLUMN_NAME", nameType),
     ("DATA_TYPE", nameType), ("COLUMN_ID", .int32), ("NULLABLE", .varChar (some 1))]

/-- Parameter for the schema that is searched. -/
def schemaParameter : Parameter := ⟨0, "schema"⟩

/-- Parameter for the table whose columns are listed. -/
def tableParameter : Parameter := ⟨1, "table"⟩

/-- Names of the tables of a schema, in order. -/
def tablesQuery (c : Catalog) : Relation :=
  .sort
    (.project
      (.filter (.table c.tables) (.binary .eq (.column 0) (.parameter schemaParameter))) [1])
    [⟨0, true⟩]

/-- Name, type name and nullability of the columns of a table, in the order of their
declaration. -/
def columnsQuery (c : Catalog) : Relation :=
  .project
    (.sort
      (.filter (.table c.columns)
        (.binary .and (.binary .eq (.column 0) (.parameter schemaParameter))
          (.binary .eq (.column 1) (.parameter tableParameter))))
      [⟨4, true⟩])
    [2, 3, 5]

end Catalog

/-- Catalog that the servers of a dialect keep. -/
def Dialect.catalog : Dialect → Catalog
  | postgreSql | sqlServer => .informationSchema
  | oracle => .dataDictionary

end SqlWright
