import FastKit.Transaction.Pool
import FastKit.Transaction.Table
import FastKit.Models.Dates
import FastKit.Models.Enums
import FastKit.Models.Notices
import FastKit.Models.Rows
import FastKit.Models.Store
import FastKit.Services.Credits
import FastKit.Services.Delivery
import FastKit.Services.Commerce
import FastKit.Services.Reconciliation
import FastKit.Services.Gateways
import FastKit.Services.Webhooks
import FastKit.Services.Sessions
import FastKit.Ledger.Balances
import FastKit.Ledger.Movements
import FastKit.Delivery.Changes
import FastKit.Delivery.Keeps
import FastKit.Delivery.Cycles
import FastKit.Delivery.Passes
import FastKit.Reconciliation.Keeps
import FastKit.Commerce.Settles
import FastKit.Webhooks.Keeps
import FastKit.Commerce.Purchases
import FastKit.Transaction.Baseless
import FastKit.Reconciliation.Baseless
import FastKit.Reconciliation.Rotation
import FastKit.Reconciliation.Refunds
import FastKit.Reconciliation.Opening
import FastKit.Reconciliation.Snapshots
import FastKit.Runs
import FastKit.Webhooks.Inbox
import FastKit.Delivery.Due
import FastKit.Delivery.Invariants
import FastKit.Delivery.Slots
import FastKit.Delivery.Reservations
import FastKit.Delivery.Schedule
import FastKit.Delivery.Returns
import FastKit.Delivery.Closing
import FastKit.Email.Attempts
import FastKit.Banners.Totals
import FastKit.Crud.Moves
import FastKit.Crud.Orders
import FastKit.Crud.Tenants
import FastKit.Events.Alone
import FastKit.Events.Batches
import FastKit.Events.Entries
import FastKit.Idempotency.Keys
import FastKit.Accounts.Epochs
import FastKit.Accounts.Letters
import FastKit.Accounts.Codes
import FastKit.Accounts.Ways
import FastKit.Accounts.Windows
import FastKit.Uploads.Keys
import FastKit.Uploads.Saves
import FastKit.Delivery.Activations
import FastKit.Delivery.Repeats
import FastKit.Delivery.Withheld
import FastKit.Catalogue.Cards
import FastKit.Helpers.Decimals
import FastKit.Helpers.Money
import FastKit.Helpers.Search
import FastKit.Helpers.Security
import FastKit.Helpers.Signing
import FastKit.Helpers.Visitors
import FastKit.Helpers.Site
import FastKit.Panel.Dates
import FastKit.Panel.Datetime
import FastKit.Schema.Carrying
import FastKit.Secrets.Batches
import FastKit.Secrets.Rotating
import FastKit.Text.Numerals
import FastKit.Webhooks.Signatures
